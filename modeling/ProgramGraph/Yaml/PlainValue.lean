import ProgramGraph.Text.Binary64
import ProgramGraph.Text.Integer

/-!
# What plain scalars stand for

A scalar without quotes is a null, a truth value, a number or a text, told apart by its spelling
alone. `PlainValue.ofText` reads it. Only lower-case marks `0x`, `0o` and `0b` select a base, and
digits after a leading zero are a text, not a number.
-/

namespace ProgramGraph.Yaml

/-- What a plain scalar stands for. -/
inductive PlainValue where
  | null
  | bool (b : Bool)
  /-- An integer of 64 bits, with or without a sign. -/
  | int (i : Int)
  /-- An integer that needs up to 128 bits. -/
  | wide
  /-- A number that is not an integer of 128 bits. -/
  | float (x : Text.Binary64)
  | text
deriving DecidableEq, Repr

namespace PlainValue

/-- Spellings of the null. -/
def nullNames : List String := ["null", "Null", "NULL", "~"]

/-- A truth value. -/
def bool? (s : String) : Option Bool :=
  if s ∈ ["true", "True", "TRUE"] then some true
  else if s ∈ ["false", "False", "FALSE"] then some false
  else none

/-- Does the text start with a sign? -/
def startsWithSign (cs : List Char) : Bool :=
  cs.head?.any fun c => c == '+' || c == '-'

/-- A leading zero and further digits, after at most one sign: a text, not a number. -/
def isZeroPadded (cs : List Char) : Bool :=
  match if startsWithSign cs then cs.tail else cs with
  | '0' :: c :: cs => (c :: cs).all Char.isDigit
  | _ => false

/-- Digits after the mark of a base, if there is a mark. -/
def basedNat? : List Char → Option Nat
  | '0' :: 'x' :: cs => Text.readNat? 16 cs
  | '0' :: 'o' :: cs => Text.readNat? 8 cs
  | '0' :: 'b' :: cs => Text.readNat? 2 cs
  | _ => none

/-- Digits, after the mark of a base or in decimal. -/
def nat? (cs : List Char) : Option Nat :=
  (basedNat? cs).or (if isZeroPadded cs then none else Text.readNat? 10 cs)

/-- An integer of any size, with at most one sign. -/
def integer? : List Char → Option Int
  | '+' :: cs => (nat? cs).map Int.ofNat
  | '-' :: cs => (nat? cs).map fun n => -Int.ofNat n
  | cs => (nat? cs).map Int.ofNat

/-- A number without a sign that is not negative, if it is one of 64 bits. -/
def word? (s : String) : Option Nat :=
  match s.toList with
  | '-' :: _ => none
  | cs => (integer? cs).bind fun i => if i < Int.pow 2 64 then some i.toNat else none

/-! ### Numbers with a point or an exponent -/

/-- The exponent at the end of a number; zero if there is none. -/
def exponent? : List Char → Option Int
  | [] => some 0
  | c :: cs => if c == 'e' || c == 'E' then Text.readInteger? true cs else none

/-- A number in decimal without a sign: its digits, and the power of ten that they are multiplied
by. -/
def decimal? (cs : List Char) : Option (Nat × Int) :=
  let (whole, rest) := cs.span Char.isDigit
  let (part, rest) := match rest with
    | '.' :: rest => rest.span Char.isDigit
    | rest => ([], rest)
  match Text.readNat? 10 (whole ++ part), exponent? rest with
  | some digits, some e => some (digits, e - part.length)
  | _, _ => none

/-- A number that is not an integer, with at most one sign. An infinity may have a sign too. -/
def float? (cs : List Char) : Option Text.Binary64 :=
  let negative := cs.head? == some '-'
  let body := if startsWithSign cs then cs.tail else cs
  if String.ofList body ∈ [".inf", ".Inf", ".INF"] then some (.infinite negative)
  else if String.ofList cs ∈ [".nan", ".NaN", ".NAN"] then some .nan
  else do
    let (digits, e) ← decimal? body
    let units ← Text.Binary64.ofDecimal? digits e
    return .finite (if negative then -(units : Int) else units)

/-! ### Reading -/

/-- What a plain scalar stands for. -/
def ofText (s : String) : PlainValue :=
  let cs := s.toList
  if s.isEmpty || s ∈ nullNames then .null
  else match bool? s, integer? cs with
    | some b, _ => .bool b
    | none, some i =>
      if -Int.pow 2 63 ≤ i && i < Int.pow 2 64 then .int i
      else if -Int.pow 2 127 ≤ i && i < Int.pow 2 128 then .wide
      else ((float? cs).map float).getD .text
    | none, none => if isZeroPadded cs then .text else ((float? cs).map float).getD .text

end PlainValue

end ProgramGraph.Yaml
