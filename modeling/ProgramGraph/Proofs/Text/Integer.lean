import Mathlib.Data.Nat.Digits.Defs
import ProgramGraph.Text.Integer

/-!
# Written numbers read back

The digits of a number, in a base of at most sixteen, read back as the number. So does the text of
an integer with its sign, and `IntRange.read?_toString` says by which ranges: by those that have a
word for the integer (`IntRange.Holds`), where a word is a vector of bits.
-/

namespace ProgramGraph.Text

theorem digitValue?_digitChar {base d : Nat} (hbase : base ≤ 16) (hd : d < base) :
    digitValue? base d.digitChar = some d := by
  have hall : ∀ d < 16, digitValue? 16 (Nat.digitChar d) = some d := by decide
  have hvalue := hall d (by omega)
  unfold digitValue? at hvalue ⊢
  rw [Option.filter_eq_some_iff] at hvalue ⊢
  exact ⟨hvalue.1, decide_eq_true hd⟩

/-- Capital letters count as digits too. -/
theorem digitValue?_toUpper_digitChar {d : Nat} (hd : d < 16) :
    digitValue? 16 (Nat.digitChar d).toUpper = some d := by
  have hall : ∀ d < 16, digitValue? 16 (Nat.digitChar d).toUpper = some d := by decide
  exact hall d hd

theorem readDigits?_append (base : Nat) (xs ys : List Char) (acc : Nat) :
    readDigits? base (xs ++ ys) acc = (readDigits? base xs acc).bind (readDigits? base ys) := by
  induction xs generalizing acc with
  | nil => rfl
  | cons x xs ih =>
    rw [List.cons_append, readDigits?, readDigits?, Option.bind_assoc]
    simp only [ih]

/-- A digit after other digits. -/
theorem readDigits?_append_singleton {base acc n d : Nat} {xs : List Char} {c : Char}
    (hxs : readDigits? base xs acc = some n) (hc : digitValue? base c = some d) :
    readDigits? base (xs ++ [c]) acc = some (n * base + d) := by
  rw [readDigits?_append, hxs, Option.bind_some, readDigits?, hc]
  rfl

/-- The digits of a number are read as that number. -/
theorem readDigits?_toDigits {base : Nat} (hone : 1 < base) (hbase : base ≤ 16) (n : Nat) :
    readDigits? base (Nat.toDigits base n) 0 = some n := by
  induction n using Nat.strongRecOn with
  | ind n ih =>
    rw [Nat.toDigits_eq_if hone]
    split
    · next hlt =>
      have hlast : readDigits? base ([] ++ [n.digitChar]) 0 = some (0 * base + n) :=
        readDigits?_append_singleton rfl (digitValue?_digitChar hbase hlt)
      rwa [List.nil_append, Nat.zero_mul, Nat.zero_add] at hlast
    · next hge =>
      have hpos : 0 < n := by omega
      have hfirst := ih (n / base) (Nat.div_lt_self hpos hone)
      have hlast := digitValue?_digitChar hbase (Nat.mod_lt n (by omega : 0 < base))
      rw [readDigits?_append_singleton hfirst hlast, Nat.mul_comm, Nat.div_add_mod]

theorem readNat?_toDigits {base : Nat} (hone : 1 < base) (hbase : base ≤ 16) (n : Nat) :
    readNat? base (Nat.toDigits base n) = some n := by
  rw [readNat?, if_neg, readDigits?_toDigits hone hbase]
  simp [Nat.toDigits_ne_nil]

/-- A number does not start with a zero, unless it is zero. -/
theorem head?_toDigits_ne_zero {n : Nat} (hn : 0 < n) : (Nat.toDigits 10 n).head? ≠ some '0' := by
  induction n using Nat.strongRecOn with
  | ind n ih =>
    rw [Nat.toDigits_eq_if (by decide)]
    split
    · rw [List.head?_singleton, ne_eq, Option.some_inj, eq_comm, Nat.zero_eq_digitChar]
      omega
    · next hge =>
      have hfirst := ih (n / 10) (by omega) (by omega)
      obtain ⟨c, cs, hcons⟩ := List.exists_cons_of_ne_nil (Nat.toDigits_ne_nil (n := n / 10))
      rw [hcons] at hfirst ⊢
      exact hfirst

/-- A number starts with a digit, and with a zero only if it is zero. -/
theorem exists_toDigits_eq_cons (n : Nat) :
    ∃ c cs, Nat.toDigits 10 n = c :: cs ∧ c.isDigit = true ∧ (0 < n → c ≠ '0') := by
  obtain ⟨c, cs, hcons⟩ := List.exists_cons_of_ne_nil (Nat.toDigits_ne_nil (n := n) (b := 10))
  refine ⟨c, cs, hcons, ?_, ?_⟩
  · exact Nat.isDigit_of_mem_toDigits (b := 10) (n := n) (by decide) (by decide) (by simp [hcons])
  · intro hn
    have hhead := head?_toDigits_ne_zero hn
    rwa [hcons, List.head?_cons, ne_eq, Option.some_inj] at hhead

theorem ne_of_isDigit {c d : Char} (hc : c.isDigit = true) (hd : d.isDigit = false) : c ≠ d := by
  rintro rfl
  rw [hc] at hd
  cases hd

theorem natCast_lt_pow {n bits : Nat} (h : n < 2 ^ bits) : (n : Int) < Int.pow 2 bits := by
  rw [Int.pow_eq]
  exact_mod_cast h

/-! ### Integers with a sign -/

theorem toList_toString_ofNat (n : Nat) : (toString (Int.ofNat n)).toList = Nat.toDigits 10 n := by
  change n.repr.toList = _
  rw [Nat.repr_eq_ofList_toDigits, String.toList_ofList]

theorem toList_toString_negSucc (n : Nat) :
    (toString (Int.negSucc n)).toList = '-' :: Nat.toDigits 10 (n + 1) := by
  change ("-" ++ (n + 1).repr).toList = _
  rw [String.toList_append, Nat.repr_eq_ofList_toDigits]
  exact congrArg ('-' :: ·) String.toList_ofList

theorem toString_ne_empty (i : Int) : toString i ≠ "" := by
  rw [ne_eq, ← String.toList_eq_nil_iff]
  cases i with
  | ofNat n =>
    rw [toList_toString_ofNat]
    exact Nat.toDigits_ne_nil
  | negSucc n =>
    rw [toList_toString_negSucc]
    exact List.cons_ne_nil _ _

/-- A number without a sign is read, with or without signs allowed. -/
theorem readInteger?_toDigits (signed : Bool) (n : Nat) :
    readInteger? signed (Nat.toDigits 10 n) = some (n : Int) := by
  obtain ⟨c, cs, hcons, hdigit, -⟩ := exists_toDigits_eq_cons n
  have hread : readNat? 10 (c :: cs) = some n := by
    rw [← hcons]
    exact readNat?_toDigits (by decide) (by decide) n
  rw [hcons]
  unfold readInteger?
  split
  · next heq => exact absurd (List.cons.inj heq).1 (ne_of_isDigit hdigit (by decide))
  · next heq => exact absurd (List.cons.inj heq).1 (ne_of_isDigit hdigit (by decide))
  · rw [hread]
    rfl

/-- The text of an integer reads back, except that a reader without signs refuses a negative one. -/
theorem readInteger?_toString (signed : Bool) (i : Int) :
    readInteger? signed (toString i).toList =
      if signed = true ∨ 0 ≤ i then some i else none := by
  cases i with
  | ofNat n =>
    rw [toList_toString_ofNat, readInteger?_toDigits, if_pos (.inr (Int.natCast_nonneg n))]
    rfl
  | negSucc n =>
    rw [toList_toString_negSucc, readInteger?, readNat?_toDigits (by decide) (by decide)]
    cases signed with
    | true => rfl
    | false => simp

namespace IntRange

/-- The value of a word: in two's complement if the range has a sign. -/
def value (r : IntRange) (w : BitVec r.bits) : Int :=
  if r.signed then w.toInt else w.toNat

/-- Some word has this value. -/
def Holds (r : IntRange) (i : Int) : Prop :=
  ∃ w : BitVec r.bits, r.value w = i

/-- The word can only be the last bits of the integer. -/
theorem holds_iff_value_ofInt {r : IntRange} {i : Int} :
    r.Holds i ↔ r.value (BitVec.ofInt r.bits i) = i := by
  refine ⟨?_, fun h => ⟨_, h⟩⟩
  rintro ⟨w, rfl⟩
  have hword : BitVec.ofInt r.bits (r.value w) = w := by
    unfold value
    split
    · exact BitVec.ofInt_toInt
    · rw [BitVec.ofInt_natCast, BitVec.ofNat_toNat, BitVec.setWidth_eq]
  rw [hword]

instance (r : IntRange) (i : Int) : Decidable (r.Holds i) :=
  decidable_of_iff _ holds_iff_value_ofInt.symm

theorem holds_toInt (i : Int64) : Holds ⟨true, 64⟩ i.toInt :=
  ⟨i.toBitVec, rfl⟩

theorem Holds.signed_or_nonneg {r : IntRange} {i : Int} (h : r.Holds i) :
    r.signed = true ∨ 0 ≤ i := by
  obtain ⟨w, rfl⟩ := h
  unfold value
  split
  · next hsigned => exact .inl hsigned
  · exact .inr (Int.natCast_nonneg _)

/-- The values of words are the integers between the bounds. A range without bits is left out: its
one word has the value zero, but with a sign its bounds let `-1` pass too. -/
theorem holds_iff_bounds {r : IntRange} (hbits : 0 < r.bits) {i : Int} :
    r.Holds i ↔ r.lo ≤ i ∧ i ≤ r.hi := by
  obtain ⟨signed, bits⟩ := r
  simp only [Holds, value, lo, hi, Int.pow_eq]
  cases signed with
  | true =>
    simp only [if_true, Int.le_sub_one_iff]
    constructor
    · rintro ⟨w, rfl⟩
      exact ⟨w.le_toInt, w.toInt_lt⟩
    · rintro ⟨hlo, hhi⟩
      exact ⟨BitVec.ofInt bits i, BitVec.toInt_ofInt_eq_self hbits hlo hhi⟩
  | false =>
    simp only [Bool.false_eq_true, if_false, Int.le_sub_one_iff]
    constructor
    · rintro ⟨w, rfl⟩
      exact ⟨Int.natCast_nonneg _, by exact_mod_cast w.isLt⟩
    · rintro ⟨hlo, hhi⟩
      lift i to Nat using hlo
      have hlt : i < 2 ^ bits := by exact_mod_cast hhi
      exact ⟨BitVec.ofNat bits i, by rw [BitVec.toNat_ofNat, Nat.mod_eq_of_lt hlt]⟩

/-- **The text of an integer reads back by the ranges that hold the integer**, and by no other. -/
theorem read?_toString {r : IntRange} (hbits : 0 < r.bits) (i : Int) :
    r.read? (toString i) = if r.Holds i then some i else none := by
  rw [read?, readInteger?_toString]
  by_cases h : r.Holds i
  · have hbounds := (holds_iff_bounds hbits).mp h
    rw [if_pos h.signed_or_nonneg, if_pos h, Option.filter_some]
    simp [hbounds]
  · have hbounds := mt (holds_iff_bounds hbits).mpr h
    rw [if_neg h]
    split
    · rw [Option.filter_some, if_neg]
      simpa using hbounds
    · rfl

end IntRange

end ProgramGraph.Text
