import ProgramGraph.Yaml.ScalarText
import ProgramGraph.Yaml.Value

/-!
# Writing values

`Value.print` writes a value as a document in block style: an entry or an item a line, nested
collections indented by two spaces, and the items of a sequence at the column of the key before
them. A text is written plain where it reads back as the same text, and between quotes otherwise.
-/

namespace ProgramGraph.Yaml

/-! ### Texts -/

/-- The last `width` hexadecimal digits of a number. -/
def hexDigits : (width : Nat) → Nat → List Char
  | 0, _ => []
  | width + 1, n => hexDigits width (n / 16) ++ [(Nat.digitChar (n % 16)).toUpper]

/-- The letter of the escape that stands for a character. -/
def escapeLetter? (c : Char) : Option Char :=
  (escapes.find? (·.2 == c)).map Prod.fst

/-- A character between double quotes: by itself, by an escape with a letter, or by its number. -/
def escapeChar (c : Char) : List Char :=
  let n := c.toNat
  if isPrintable c && c != '"' && c != '\\' then [c]
  else match escapeLetter? c with
    | some letter => ['\\', letter]
    | none =>
      if n < 0x100 then '\\' :: 'x' :: hexDigits 2 n
      else if n < 0x10000 then '\\' :: 'u' :: hexDigits 4 n
      else '\\' :: 'U' :: hexDigits 8 n

/-- A text between double quotes. -/
def doubleQuote (cs : List Char) : List Char :=
  '"' :: cs.flatMap escapeChar ++ ['"']

/-- A text between single quotes, where a quote is written twice. -/
def singleQuote (cs : List Char) : List Char :=
  '\'' :: cs.flatMap (fun c => if c == '\'' then [c, c] else [c]) ++ ['\'']

/-- A character that a plain text cannot start with. -/
def isOpeningMark (c : Char) : Bool :=
  "#,[]\x7b\x7d&*!|>'\"%@\x60".toList.contains c

/-- Does a plain text break off inside, at a colon before a blank or the end, or at a blank before
a number sign? -/
def breaksOff : List Char → Bool
  | [] => false
  | c :: cs =>
    (c == ':' && cs.head?.all (· == ' ')) || (c == ' ' && cs.head? == some '#') || breaksOff cs

/-- Does the text have a form that a plain scalar cannot have? -/
def needsMarks (cs : List Char) : Bool :=
  cs.head? == some ' ' || cs.getLast? == some ' ' ||
    "---".toList.isPrefixOf cs || "...".toList.isPrefixOf cs ||
    cs.head?.any isOpeningMark ||
    (cs.head?.any (fun c => c == '?' || c == ':' || c == '-') && cs.tail.head?.all (· == ' ')) ||
    breaksOff cs

/-- Does the text, written plain, read back as something else than a text, or look like a number? -/
def readsOtherwise (s : String) : Bool :=
  PlainValue.ofText s != .text || PlainValue.isZeroPadded s.toList

/-- A text as it is written. -/
def printText (s : String) : String :=
  let cs := s.toList
  if cs.any (!isPrintable ·) then String.ofList (doubleQuote cs)
  else if readsOtherwise s || needsMarks cs then String.ofList (singleQuote cs)
  else s

/-! ### Values -/

namespace Value

/-- A value that is written on the line of its key or its hyphen. -/
def inline? : Value → Option String
  | null => some "null"
  | bool b => some (if b then "true" else "false")
  | int i => some (toString i)
  | float text => some text
  | string s => some (printText s)
  | sequence [] => some "[]"
  | mapping [] => some "\x7b\x7d"
  | tagged tag v => v.inline?.map fun text => "!" ++ tag ++ " " ++ text
  | _ => none

/-- The tags that stand on the line of a key before a nested collection. -/
def tagMarks : Value → String
  | tagged tag v => " !" ++ tag ++ v.tagMarks
  | _ => ""

/-- Lines one level further in. -/
def nest (lines : List String) : List String :=
  lines.map ("  " ++ ·)

/-- Lines after a mark of two characters on the first of them. -/
def hang (mark : String) : List String → List String
  | [] => [mark]
  | line :: lines => (mark ++ line) :: nest lines

mutual

/-- The lines of a value. -/
def lines : Value → List String
  | sequence items => itemLines items
  | mapping entries => entryLines entries
  | tagged _ v => lines v
  | v => v.inline?.toList

/-- The lines of the items of a sequence. -/
def itemLines : List Value → List String
  | [] => []
  | v :: items =>
    (match v.inline? with
      | some text => ["- " ++ text]
      | none => hang "- " (lines v)) ++ itemLines items

/-- The lines of the entries of a mapping. -/
def entryLines : List (Value × Value) → List String
  | [] => []
  | (k, v) :: entries =>
    (match k.inline?, v.inline? with
      | some key, some text => [key ++ ": " ++ text]
      | some key, none =>
        (key ++ ":" ++ v.tagMarks) ::
          (match v with
            | sequence items => itemLines items
            | v => nest (lines v))
      | none, _ => hang "? " (lines k) ++ hang ": " (lines v)) ++ entryLines entries

end

/-- The value as a document. -/
def print (v : Value) : String :=
  String.join (v.lines.map (· ++ "\n"))

end Value

end ProgramGraph.Yaml
