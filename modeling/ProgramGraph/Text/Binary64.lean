/-!
# Numbers of 64 bits with a binary point

A finite number of 64 bits is a whole number of units of `2 ^ -1074`, of which all but the first 53
binary digits are zero. `Binary64.ofDecimal?` rounds a decimal number to the nearest such number.
Numbers are told apart by their value alone, so both zeros are one number.
-/

namespace ProgramGraph.Text

/-- A number of 64 bits with a binary point. -/
inductive Binary64 where
  /-- So many units of `2 ^ -1074`. -/
  | finite (units : Int)
  | infinite (negative : Bool)
  | nan
deriving DecidableEq, Repr

namespace Binary64

/-- A quotient rounded to the nearest integer, a half to the even one. -/
def roundDiv (a b : Nat) : Nat :=
  let quotient := a / b
  let twice := 2 * (a % b)
  if b < twice || (twice == b && quotient % 2 == 1) then quotient + 1 else quotient

/-- A quotient rounded to 53 binary digits. -/
def roundRatio (a b : Nat) : Nat :=
  let scale := Nat.pow 2 ((a / b).log2 - 52)
  roundDiv a (b * scale) * scale

/-- From so many units on, a number is infinite. -/
def unitBound : Nat := Nat.pow 2 (1024 + 1074)

/-- The finite number nearest to `digits * 10 ^ e`, as units. Only a number that can be finite and
other than zero is computed: one between `10 ^ -324` and `10 ^ 309`. -/
def ofDecimal? (digits : Nat) (e : Int) : Option Nat :=
  let size := ((Nat.toDigits 10 digits).length : Int) + e
  if digits == 0 || size < -323 then some 0
  else if 309 < size then none
  else
    let units := roundRatio (digits * Nat.pow 10 e.toNat * Nat.pow 2 1074) (Nat.pow 10 (-e).toNat)
    if units < unitBound then some units else none

end Binary64

end ProgramGraph.Text
