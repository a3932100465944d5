import ProgramGraph.Proofs.Text.Integer
import ProgramGraph.Proofs.Yaml.Node
import ProgramGraph.Yaml.Meaning

/-!
# Nodes mean the values they were printed from

A number of 64 bits reads back from its digits, a text is written plain only where it reads as a
text, and the keys of a mapping in block style differ. So `Value.ofTree` gives back the value that a
node was printed from (`Value.IsBlock.ofTree_toNode`).
-/

namespace ProgramGraph.Yaml

/-! ### Plain numbers -/

namespace PlainValue

theorem nat?_toDigits (n : Nat) : nat? (Nat.toDigits 10 n) = some n := by
  rcases Nat.eq_zero_or_pos n with rfl | hn
  · decide
  · obtain ⟨c, cs, hcons, hdigit, hzero⟩ := Text.exists_toDigits_eq_cons n
    have hread : Text.readNat? 10 (c :: cs) = some n := by
      rw [← hcons]
      exact Text.readNat?_toDigits (by decide) (by decide) n
    have hbased : basedNat? (c :: cs) = none := by
      unfold basedNat?
      split <;> simp_all
    have hsign : startsWithSign (c :: cs) = false := by
      simp [startsWithSign, Text.ne_of_isDigit hdigit]
    have hpadded : isZeroPadded (c :: cs) = false := by
      unfold isZeroPadded
      rw [hsign]
      simp only [Bool.false_eq_true, if_false]
      split <;> simp_all
    rw [hcons, nat?, hbased, hpadded, hread]
    rfl

theorem integer?_toDigits (n : Nat) : integer? (Nat.toDigits 10 n) = some (n : Int) := by
  obtain ⟨c, cs, hcons, hdigit, -⟩ := Text.exists_toDigits_eq_cons n
  have hnat := nat?_toDigits n
  rw [hcons] at hnat ⊢
  unfold integer?
  split
  · next heq => exact absurd (List.cons.inj heq).1 (Text.ne_of_isDigit hdigit (by decide))
  · next heq => exact absurd (List.cons.inj heq).1 (Text.ne_of_isDigit hdigit (by decide))
  · rw [hnat]
    rfl

/-- A text that starts with a digit is no name of a null or a truth value. -/
theorem ofText_of_isDigit {s : String} {c : Char} {cs : List Char} {n : Nat}
    (hs : s.toList = c :: cs) (hdigit : c.isDigit = true)
    (hinteger : integer? s.toList = some (n : Int)) (hn : n < 2 ^ 64) : ofText s = .int n := by
  -- the names of nulls and truth values start with something else
  have hne : ∀ {name : String}, name.toList.head?.all (!·.isDigit) = true → s ≠ name := by
    rintro name hname rfl
    rw [hs] at hname
    simp [hdigit] at hname
  have hnull : (s.isEmpty || decide (s ∈ nullNames)) = false := by
    simp (disch := decide) [nullNames, hne]
  have hbool : bool? s = none := by
    simp (disch := decide) [bool?, hne]
  have hrange :
      (decide (-Int.pow 2 63 ≤ (n : Int)) && decide ((n : Int) < Int.pow 2 64)) = true := by
    rw [Bool.and_eq_true, decide_eq_true_iff, decide_eq_true_iff]
    constructor
    · exact le_trans (by decide) (Int.natCast_nonneg n)
    · exact Text.natCast_lt_pow hn
  simp only [ofText, hnull, hbool, hinteger, hrange, Bool.false_eq_true, if_false, if_true]

/-- **A word of 64 bits reads back** from its decimal digits. -/
theorem ofText_toString {n : Nat} (h : n < 2 ^ 64) : ofText (toString n) = .int n := by
  obtain ⟨c, cs, hcons, hdigit, -⟩ := Text.exists_toDigits_eq_cons n
  have htext : (toString n).toList = Nat.toDigits 10 n := by
    rw [Nat.toString_eq_ofList_toDigits, String.toList_ofList]
  refine ofText_of_isDigit (htext.trans hcons) hdigit ?_ h
  rw [htext]
  exact integer?_toDigits n

end PlainValue

/-! ### Values -/

namespace Value

/-- The value of a plain text that does not read otherwise is the text. -/
theorem ofUntagged_textStyle (s : String) : ofUntagged (textStyle s) s = .ok (.string s) := by
  unfold textStyle
  split
  · rfl
  · split
    · rfl
    · next hmarks =>
      have htext : PlainValue.ofText s = .text := by
        simp only [readsOtherwise, Bool.or_eq_true, not_or, bne_iff_ne, not_not] at hmarks
        exact hmarks.1.1
      rw [ofUntagged, if_pos rfl, ofPlain, htext]

theorem IsScalar.ofTree_scalarNode {v : Value} (h : v.IsScalar) : ofTree v.scalarNode = .ok v := by
  have hscalar : ofTree v.scalarNode = ofUntagged v.scalarStyle v.scalarText := by
    rw [scalarNode, ofTree]
    rfl
  rw [hscalar]
  cases h with
  | null => rfl
  | bool b => cases b <;> rfl
  | @word n h =>
    change ofPlain (toString n) = .ok (.int n)
    rw [ofPlain, PlainValue.ofText_toString h]
  | string s => exact ofUntagged_textStyle s

theorem ofItems_scalarNode {items : List Value} (h : ∀ v ∈ items, v.IsScalar) :
    ofItems (items.map scalarNode) = .ok items := by
  induction items with
  | nil => rfl
  | cons v items ih =>
    rw [List.forall_mem_cons] at h
    rw [List.map_cons, ofItems, h.1.ofTree_scalarNode, ih h.2]
    rfl

/-- The nodes of a mapping are read back as its entries. -/
theorem ofEntries_entryNodes {entries : List (Value × Value)} (hkeys : ∀ e ∈ entries, e.1.IsKey)
    (hvalues : ∀ e ∈ entries, ofTree e.2.toNode = .ok e.2) :
    ofEntries (entryNodes entries) = .ok entries := by
  induction entries with
  | nil => rfl
  | cons e entries ih =>
    obtain ⟨k, v⟩ := e
    rw [List.forall_mem_cons] at hkeys hvalues
    obtain ⟨s, rfl, -⟩ := hkeys.1
    rw [entryNodes, ofEntries, (IsScalar.string s).ofTree_scalarNode, hvalues.1,
      ih hkeys.2 hvalues.2]
    rfl

/-- **The node of a value in block style means the value.** -/
theorem IsBlock.ofTree_toNode {depth : Nat} {v : Value} (h : IsBlock depth v) :
    ofTree v.toNode = .ok v := by
  induction h with
  | scalar h => rw [h.toNode_eq, h.ofTree_scalarNode]
  | sequence h =>
    rw [toNode, ofTree, ofItems_scalarNode h]
    rfl
  | mapping hne hkeys hdistinct h ih =>
    rw [toNode, ofTree, ofEntries_entryNodes hkeys ih]
    simp only [bind, Except.bind, hdistinct]
    rfl

end Value

end ProgramGraph.Yaml
