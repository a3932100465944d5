import ProgramGraph.Bag
import ProgramGraph.Proofs.Text.Integer

/-!
# Typed values survive as texts

A bag keeps nothing but texts, so a typed value is only as good as the text that `Bag.setValue`
writes for it. What `Bag.parse` finds under the name is settled by that text alone
(`Bag.parse_setValue`):

* an integer is found by the ranges that hold it, and every other range reports the name and the
  text (`Bag.parse_setValue_int`);
* a truth value is found both by `Bag.flag` and by `Bag.parse` (`Bag.flag_setValue_bool`,
  `Bag.parse_setValue_bool`);
* no other name reads differently from before (`Bag.agreeOff_setValue`).

An integer of 64 bits with a sign is an `Int64`, which has no value out of range.
-/

namespace ProgramGraph

theorem ValueType.readBool?_render (v : Bool) :
    readBool? (PropertyValue.bool v).render = some v := by
  cases v <;> rfl

namespace Bag

open Text (IntRange)

/-- Every name but `k` reads the same in both bags, whatever it is read as. -/
structure AgreeOff (k : String) (b c : Bag) : Prop where
  get : ∀ k' ≠ k, b.get k' = c.get k'
  flag : ∀ k' ≠ k, b.flag k' = c.flag k'
  parse : ∀ k' ≠ k, ∀ type, b.parse k' type = c.parse k' type

/-- Storing a value changes no other key. -/
theorem agreeOff_setValue (b : Bag) (k : String) (v : PropertyValue) :
    AgreeOff k (b.setValue k v) b := by
  have hget : ∀ k' ≠ k, (b.setValue k v).get k' = b.get k' := by
    intro k' hk
    rw [setValue, get_set, if_neg hk.symm]
  refine ⟨hget, fun k' hk => ?_, fun k' hk type => ?_⟩
  · rw [flag, flag, hget k' hk]
  · rw [parse, parse, hget k' hk]

theorem get_setValue (b : Bag) (k : String) (v : PropertyValue) :
    (b.setValue k v).get k = v.render := by
  rw [setValue, get_set, if_pos rfl]

/-- The empty text stands for no value at all; any other one is read or reported. -/
theorem parse_setValue (b : Bag) (k : String) (v : PropertyValue) (hne : v.render ≠ "")
    (type : ValueType) :
    (b.setValue k v).parse k type =
      (type.read? v.render).elim (.error (.propertyType k v.render type.name))
        fun value => .ok (some value) := by
  have hempty : ¬ v.render.isEmpty = true := by rwa [String.isEmpty_iff]
  rw [parse, get_setValue, if_neg hempty]
  cases type.read? v.render <;> rfl

/-- A stored integer is read back at every type that holds it, and is an error at the others. -/
theorem parse_setValue_int (b : Bag) (k : String) (i : Int) {r : IntRange}
    (hbits : 0 < r.bits) :
    (b.setValue k (.int i)).parse k (.int r) =
      if r.Holds i then .ok (some (.int i))
      else .error (.propertyType k (toString i) r.name) := by
  have hread : (ValueType.int r).read? (PropertyValue.int i).render =
      (if r.Holds i then some i else none).map .int := by
    rw [← IntRange.read?_toString hbits]
    rfl
  rw [parse_setValue b k (.int i) (Text.toString_ne_empty i), hread]
  split <;> rfl

theorem parse_setValue_bool (b : Bag) (k : String) (v : Bool) :
    (b.setValue k (.bool v)).parse k .bool = .ok (some (.bool v)) := by
  have hne : (PropertyValue.bool v).render ≠ "" := by cases v <;> decide
  rw [parse_setValue b k (.bool v) hne, ValueType.read?, ValueType.readBool?_render]
  rfl

theorem flag_setValue_bool (b : Bag) (k : String) (v : Bool) :
    (b.setValue k (.bool v)).flag k = some v := by
  rw [flag, get_setValue, ValueType.readBool?_render]

/-- **Typed values survive as texts.** An integer of 64 bits is written as its decimal text. It
reads back as an integer of any width that holds it, with or without a sign; for any other width
there is an error with the name and the text. A truth value reads back as a flag and as a typed
value. No other name reads differently from before. -/
theorem setValue_readsBack (b : Bag) (k : String) :
    (∀ i : Int64,
      (b.setValue k (.int i.toInt)).get k = toString i.toInt ∧
      (b.setValue k (.int i.toInt)).parse k (.int ⟨true, 64⟩) = .ok (some (.int i.toInt)) ∧
      (∀ r : IntRange, 0 < r.bits →
        (b.setValue k (.int i.toInt)).parse k (.int r) =
          if r.Holds i.toInt then .ok (some (.int i.toInt))
          else .error (.propertyType k (toString i.toInt) r.name)) ∧
      AgreeOff k (b.setValue k (.int i.toInt)) b) ∧
    ∀ v : Bool,
      (b.setValue k (.bool v)).flag k = some v ∧
      (b.setValue k (.bool v)).parse k .bool = .ok (some (.bool v)) ∧
      AgreeOff k (b.setValue k (.bool v)) b := by
  constructor
  · intro i
    refine ⟨get_setValue b k _, ?_, fun r hbits => parse_setValue_int b k _ hbits,
      agreeOff_setValue b k _⟩
    rw [parse_setValue_int b k _ (by decide), if_pos (IntRange.holds_toInt i)]
  · intro v
    exact ⟨flag_setValue_bool b k v, parse_setValue_bool b k v, agreeOff_setValue b k _⟩

/-- The least integer of 64 bits is too small for 8 and 32 bits and has no word without a sign. A
name that differs in one capital letter keeps its number. -/
theorem setValue_readsBack_least :
    let b := (∅ : Bag).set "Weight" "7"
    let c := b.setValue "weight" (.int Int64.minValue.toInt)
    c.parse "weight" (.int ⟨true, 64⟩) = .ok (some (.int (-9223372036854775808))) ∧
      (∀ r ∈ ([⟨true, 8⟩, ⟨true, 32⟩, ⟨false, 8⟩, ⟨false, 64⟩] : List IntRange),
        c.parse "weight" (.int r) =
          .error (.propertyType "weight" "-9223372036854775808" r.name)) ∧
      c.parse "Weight" (.int ⟨false, 8⟩) = .ok (some (.int 7)) := by
  intro b c
  obtain ⟨-, hself, hrange, hother⟩ := (setValue_readsBack b "weight").1 Int64.minValue
  have hbefore : b.parse "Weight" (.int ⟨false, 8⟩) = .ok (some (.int 7)) := by
    rw [parse, get_set, if_pos rfl]
    rfl
  refine ⟨hself, ?_, (hother.parse "Weight" (by decide) _).trans hbefore⟩
  intro r hr
  have hout : 0 < r.bits ∧ ¬ r.Holds Int64.minValue.toInt := by
    revert r
    decide
  rw [hrange r hout.1, if_neg hout.2]
  rfl

end Bag

end ProgramGraph
