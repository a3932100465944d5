/-!
# Integers written in decimal

`readInteger?` accepts an optional sign and one or more ASCII digits, and nothing else: no blanks,
no separators. A minus sign is accepted only where the caller allows one. `IntRange` is a range of
integers of a given width, and `IntRange.read?` also asks that the number fits.
-/

namespace ProgramGraph.Text

/-- The value of a digit in a base of at most sixteen, letters in either case. -/
def digitValue? (base : Nat) (c : Char) : Option Nat :=
  let value : Option Nat :=
    if '0' ≤ c ∧ c ≤ '9' then some (c.toNat - '0'.toNat)
    else if 'a' ≤ c ∧ c ≤ 'f' then some (c.toNat - 'a'.toNat + 10)
    else if 'A' ≤ c ∧ c ≤ 'F' then some (c.toNat - 'A'.toNat + 10)
    else none
  value.filter (· < base)

/-- The number that the digits write after the digits already read. -/
def readDigits? (base : Nat) : List Char → Nat → Option Nat
  | [], acc => some acc
  | c :: cs, acc => (digitValue? base c).bind fun d => readDigits? base cs (acc * base + d)

/-- One or more digits. -/
def readNat? (base : Nat) (cs : List Char) : Option Nat :=
  if cs.isEmpty then none else readDigits? base cs 0

/-- An optional `+` and decimal digits; with `signed` also an optional `-`. -/
def readInteger? (signed : Bool) : List Char → Option Int
  | '+' :: cs => (readNat? 10 cs).map Int.ofNat
  | '-' :: cs => if signed then (readNat? 10 cs).map fun n => -Int.ofNat n else none
  | cs => (readNat? 10 cs).map Int.ofNat

/-- The integers that a word of `bits` bits holds, with or without a sign. -/
structure IntRange where
  signed : Bool
  bits : Nat
deriving DecidableEq, Repr

namespace IntRange

/-- The least number of the range. -/
def lo (r : IntRange) : Int :=
  if r.signed then -Int.pow 2 (r.bits - 1) else 0

/-- The greatest number of the range. -/
def hi (r : IntRange) : Int :=
  if r.signed then Int.pow 2 (r.bits - 1) - 1 else Int.pow 2 r.bits - 1

/-- The name of the range: `i` or `u` and the number of bits. -/
def name (r : IntRange) : String :=
  (if r.signed then "i" else "u") ++ toString r.bits

/-- Reads a decimal integer of the range. -/
def read? (r : IntRange) (s : String) : Option Int :=
  (readInteger? r.signed s.toList).filter fun i => r.lo ≤ i && i ≤ r.hi

end IntRange

/-- Words of 64 bits without a sign. -/
def word64 : IntRange := ⟨false, 64⟩

/-- Reads a word of 64 bits without a sign. -/
def readWord64? (s : String) : Option Nat :=
  (word64.read? s).map Int.toNat

end ProgramGraph.Text
