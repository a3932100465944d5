import ProgramGraph.Yaml.ScalarText
import ProgramGraph.Yaml.Tag
import ProgramGraph.Yaml.Token

/-!
# From characters to tokens

`tokens` reads the tokens of a document. Outside of brackets, collections are opened and closed by
indentation, and a key is known as one only when its colon is met. So a place where a key may
start reserves an empty slot in the list of tokens; if a colon follows, the slot is filled, and if
not, it stays empty.
-/

namespace ProgramGraph.Yaml

/-- A place where a key may have started: its slot, whether the indentation asks for a key there,
and where it stands. -/
structure KeyCandidate where
  slot : Nat
  required : Bool
  index : Nat
  line : Nat
  column : Nat

/-- A document while it is read. -/
structure Scan where
  cursor : Cursor
  slots : Array (List Token) := #[]
  /-- For each level of brackets, the innermost first, the key that may have started there. -/
  candidates : List (Option KeyCandidate) := [none]
  /-- The column of the innermost collection outside of brackets, `-1` if there is none. -/
  indent : Int := -1
  /-- The columns of the collections around it. -/
  outer : List Int := []
  /-- Whether a key may start here. -/
  keyAllowed : Bool := true

namespace Scan

/-- Are we inside brackets? -/
def inFlow (s : Scan) : Bool :=
  1 < s.candidates.length

/-- Adds a token. -/
def push (s : Scan) (t : Token) : Scan :=
  { s with slots := s.slots.push [t] }

/-- The tokens read, in order. -/
def tokens (s : Scan) : List Token :=
  s.slots.toList.flatten

/-! ### Indentation -/

/-- Closes the collections indented further than the column. -/
def closeFrom (column : Int) : (outer : List Int) → (indent : Int) → Scan → Scan
  | [], indent, s => { s with indent, outer := [] }
  | next :: outer, indent, s =>
    if column < indent then closeFrom column outer next (s.push .blockEnd)
    else { s with indent, outer := next :: outer }

/-- Closes the collections indented further than the column; brackets ignore indentation. -/
def closeTo (column : Int) (s : Scan) : Scan :=
  if s.inFlow then s else closeFrom column s.outer s.indent s

/-- Does a collection open at the column? -/
def opensAt (column : Nat) (s : Scan) : Bool :=
  !s.inFlow && s.indent < (column : Int)

/-- Makes the column that of the innermost collection. -/
def indentTo (column : Nat) (s : Scan) : Scan :=
  { s with indent := column, outer := s.indent :: s.outer }

/-- Opens a collection at the current column, unless one is open there. -/
def openHere (t : Token) (s : Scan) : Scan :=
  if s.opensAt s.cursor.column then (s.indentTo s.cursor.column).push t else s

/-! ### Keys -/

/-- How far from its start, in bytes, a key may reach. -/
def keyReach : Nat := 1024

/-- Gives up the keys that have no colon on their line or within reach. -/
def dropStale (s : Scan) : Except String Scan := do
  let candidates ← s.candidates.mapM fun
    | none => .ok none
    | some k =>
      if k.line < s.cursor.line || k.index + keyReach < s.cursor.index then
        if k.required then .error "could not find expected ':'" else .ok none
      else .ok (some k)
  return { s with candidates }

/-- Gives up the key that may have started at this level of brackets. -/
def forgetKey (s : Scan) : Except String Scan :=
  match s.candidates with
  | some k :: rest =>
    if k.required then .error "could not find expected ':'"
    else .ok { s with candidates := none :: rest }
  | _ => .ok s

/-- Notes that a key may start here. -/
def noteKey (s : Scan) : Except String Scan :=
  if !s.keyAllowed then .ok s
  else do
    let s ← s.forgetKey
    let key : KeyCandidate :=
      { slot := s.slots.size
        required := !s.inFlow && s.indent == (s.cursor.column : Int)
        index := s.cursor.index
        line := s.cursor.line
        column := s.cursor.column }
    return { s with slots := s.slots.push [], candidates := some key :: s.candidates.tail }

/-- Fills the slot of a key, and opens a mapping before it unless one is open at its column. -/
def fillKey (k : KeyCandidate) (s : Scan) : Scan :=
  let s := { s with candidates := none :: s.candidates.tail }
  if s.opensAt k.column then
    { s.indentTo k.column with slots := s.slots.setIfInBounds k.slot [.blockMappingStart, .key] }
  else { s with slots := s.slots.setIfInBounds k.slot [.key] }

/-! ### Blanks between tokens -/

/-- Moves past blanks, comments and line ends. A byte order mark may start a line, a tab counts as
a blank where no key may start, and outside of brackets a key may start on a new line. -/
def skipBlanks : (fuel : Nat) → Scan → Scan
  | 0, s => s
  | fuel + 1, s =>
    let tabs := s.inFlow || !s.keyAllowed
    let c := s.cursor
    let c := if c.column == 0 && c.peek == some '\ufeff' then c.next else c
    let c := c.skipWhile fun ch => ch == ' ' || (tabs && ch == '\t')
    let c := if c.peek == some '#' then c.skipWhile (!isBreak ·) else c
    if c.peek.any isBreak then
      skipBlanks fuel { s with cursor := c.next, keyAllowed := !s.inFlow || s.keyAllowed }
    else { s with cursor := c }

/-! ### Names, tags and directives -/

/-- Adds an anchor or an alias. -/
def scanName (token : String → Token) (s : Scan) : Except String Scan := do
  let s ← s.noteKey
  let (name, c) := s.cursor.next.span isWordChar
  let ends := match c.peek with
    | none => true
    | some ch => isGap ch || "?:,]\x7d%@\x60".toList.contains ch
  if name.isEmpty || !ends then
    throw "did not find expected alphabetic or numeric character"
  return { s.push (token (String.ofList name)) with cursor := c, keyAllowed := false }

/-- A character of a tag; inside angle brackets some marks count too. -/
def isTagChar (verbatim : Bool) (c : Char) : Bool :=
  isWordChar c || ";/?:@&=+$.%!~*'()".toList.contains c ||
    (verbatim && (c == ',' || c == '[' || c == ']'))

/-- How many bytes a character takes whose first byte is given; none if no character starts so. -/
def encodedLength? (b : UInt8) : Option Nat :=
  if b < 0x80 then some 1
  else if 0xC0 ≤ b && b < 0xE0 then some 2
  else if 0xE0 ≤ b && b < 0xF0 then some 3
  else if 0xF0 ≤ b && b < 0xF8 then some 4
  else none

/-- The bytes of a part of a tag, where a percent sign and two hexadecimal digits stand for a byte.
The bytes of one character have to follow each other; `pending` is how many of them are missing.
That they encode a character is not asked. -/
def tagBytes : (pending : Nat) → List Char → Except String (List UInt8)
  | pending, '%' :: a :: b :: cs => do
    let some n := Text.readNat? 16 [a, b] | throw "did not find URI escaped octet"
    let byte := n.toUInt8
    match pending with
    | 0 =>
      let some length := encodedLength? byte | throw "found an incorrect leading UTF-8 octet"
      return byte :: (← tagBytes (length - 1) cs)
    | pending + 1 =>
      if byte < 0x80 || 0xC0 ≤ byte then throw "found an incorrect trailing UTF-8 octet"
      return byte :: (← tagBytes pending cs)
  | 0, c :: cs =>
    if c == '%' then .error "did not find URI escaped octet"
    else do return Tag.bytesOf (String.singleton c) ++ (← tagBytes 0 cs)
  | 0, [] => .ok []
  | _, _ => .error "did not find URI escaped octet"

/-- Reads a part of a tag, which ends before the first byte that is zero. -/
def tagPart (verbatim : Bool) (c : Cursor) : Except String (List UInt8 × Cursor) := do
  let (part, c) := c.span (isTagChar verbatim)
  return ((← tagBytes 0 part).takeWhile (· != 0), c)

/-- Reads a part of a tag that has to be there. -/
def someTagPart (verbatim : Bool) (c : Cursor) : Except String (List UInt8 × Cursor) :=
  if c.peek.any (isTagChar verbatim) then tagPart verbatim c
  else .error "did not find expected tag URI"

/-- Reads a handle: an exclamation mark, a word, and, if it is there, another exclamation mark. -/
def tagHandle (c : Cursor) : Except String (String × Cursor) :=
  if c.peek != some '!' then .error "did not find expected '!'"
  else
    let (word, c) := c.next.span isWordChar
    if c.peek == some '!' then .ok ("!" ++ String.ofList word ++ "!", c.next)
    else .ok ("!" ++ String.ofList word, c)

/-- Reads a tag: its handle and the bytes of the rest. A mark alone is a tag without a handle. -/
def readTag (c : Cursor) : Except String (String × List UInt8 × Cursor) := do
  if c.peekAt 1 == some '<' then
    let (suffix, c) ← someTagPart true (c.advance 2)
    if c.peek != some '>' then throw "did not find the expected '>'"
    return ("", suffix, c.next)
  else
    let (handle, c) ← tagHandle c
    if handle != "!" && handle.endsWith "!" then
      let (suffix, c) ← someTagPart false c
      return (handle, suffix, c)
    else
      let (rest, c) ← tagPart false c
      let suffix := (Tag.bytesOf handle).tail ++ rest
      return if suffix.isEmpty then ("", [Tag.mark], c) else ("!", suffix, c)

/-- Adds a tag. -/
def scanTag (s : Scan) : Except String Scan := do
  let s ← s.noteKey
  let (handle, suffix, c) ← readTag s.cursor
  if !isGapOrEnd c.peek && !(s.inFlow && c.peek == some ',') then
    throw "did not find expected whitespace or line break"
  return { s.push (.tag handle suffix) with cursor := c, keyAllowed := false }

/-- Reads a part of a version number. -/
def versionNumber (c : Cursor) : Except String (Nat × Cursor) :=
  let (digits, c) := c.span Char.isDigit
  match Text.readNat? 10 digits with
  | some n => if digits.length ≤ 9 then .ok (n, c) else .error "found extremely long version number"
  | none => .error "did not find expected version number"

/-- Reads what stands after the percent sign of a directive. -/
def readDirective (c : Cursor) : Except String (Token × Cursor) := do
  let (name, c) := c.span isWordChar
  if name.isEmpty then throw "could not find expected directive name"
  if !isGapOrEnd c.peek then throw "found unexpected non-alphabetical character"
  let c := c.skipWhile isSpaceOrTab
  if name == "YAML".toList then
    let (major, c) ← versionNumber c
    if c.peek != some '.' then throw "did not find expected digit or '.' character"
    let (minor, c) ← versionNumber c.next
    return (.versionDirective major minor, c)
  else if name == "TAG".toList then
    let (handle, c) ← tagHandle c
    if handle != "!" && !handle.endsWith "!" then throw "did not find expected '!'"
    if !c.peek.any isSpaceOrTab then throw "did not find expected whitespace"
    let (stem, c) ← someTagPart true (c.skipWhile isSpaceOrTab)
    if !isGapOrEnd c.peek then throw "did not find expected whitespace or line break"
    return (.tagDirective handle stem, c)
  else throw "found unknown directive name"

/-- Closes every collection before a mark that stands between documents. -/
def closeAll (s : Scan) : Except String Scan := do
  let s ← (s.closeTo (-1)).forgetKey
  return { s with keyAllowed := false }

/-- Adds a directive, which takes its whole line. -/
def scanDirective (s : Scan) : Except String Scan := do
  let s ← s.closeAll
  let (token, c) ← readDirective s.cursor.next
  let c := c.skipWhile isSpaceOrTab
  let c := if c.peek == some '#' then c.skipWhile (!isBreak ·) else c
  if !c.isAtEnd && !c.peek.any isBreak then throw "did not find expected comment or line break"
  return { s.push token with cursor := c.next }

/-- Adds a mark that starts or ends a document. -/
def scanDocumentMark (token : Token) (s : Scan) : Except String Scan := do
  let s ← s.closeAll
  return { s.push token with cursor := s.cursor.advance 3 }

/-! ### Marks -/

/-- Adds an opening bracket. -/
def scanOpening (token : Token) (s : Scan) : Except String Scan := do
  let s ← s.noteKey
  return { s.push token with
    cursor := s.cursor.next, candidates := none :: s.candidates, keyAllowed := true }

/-- Adds a closing bracket. -/
def scanClosing (token : Token) (s : Scan) : Except String Scan := do
  let s ← s.forgetKey
  let candidates := if s.inFlow then s.candidates.tail else s.candidates
  return { s.push token with cursor := s.cursor.next, candidates, keyAllowed := false }

/-- Adds a comma. -/
def scanComma (s : Scan) : Except String Scan := do
  let s ← s.forgetKey
  return { s.push .flowEntry with cursor := s.cursor.next, keyAllowed := true }

/-- Adds a hyphen that starts an item. -/
def scanHyphen (s : Scan) : Except String Scan := do
  if !s.inFlow && !s.keyAllowed then
    throw "block sequence entries are not allowed in this context"
  let s ← (s.openHere .blockSequenceStart).forgetKey
  return { s.push .blockEntry with cursor := s.cursor.next, keyAllowed := true }

/-- Adds a question mark that starts a key. -/
def scanQuestion (s : Scan) : Except String Scan := do
  if !s.inFlow && !s.keyAllowed then throw "mapping keys are not allowed in this context"
  let s ← (s.openHere .blockMappingStart).forgetKey
  return { s.push .key with cursor := s.cursor.next, keyAllowed := !s.inFlow }

/-- Adds a colon, and before it the key that it ends. -/
def scanColon (s : Scan) : Except String Scan := do
  match s.candidates with
  | some k :: _ =>
    let s := s.fillKey k
    return { s.push .value with cursor := s.cursor.next, keyAllowed := false }
  | _ =>
    if !s.inFlow && !s.keyAllowed then throw "mapping values are not allowed in this context"
    let s := s.openHere .blockMappingStart
    return { s.push .value with cursor := s.cursor.next, keyAllowed := !s.inFlow }

/-! ### Scalars -/

/-- Adds a quoted scalar. -/
def scanQuoted (double : Bool) (fuel : Nat) (s : Scan) : Except String Scan := do
  let s ← s.noteKey
  let (text, c) ← readQuoted double fuel s.cursor
  let style : ScalarStyle := if double then .doubleQuoted else .singleQuoted
  return { s.push (.scalar style (String.ofList text)) with cursor := c, keyAllowed := false }

/-- Adds a scalar written as a block of lines. -/
def scanBlock (isFolded : Bool) (fuel : Nat) (s : Scan) : Except String Scan := do
  let s ← s.forgetKey
  let (text, c) ← readBlock isFolded s.indent fuel s.cursor
  let style : ScalarStyle := if isFolded then .folded else .literal
  return { s.push (.scalar style (String.ofList text)) with cursor := c, keyAllowed := true }

/-- Adds a plain scalar. -/
def scanPlain (fuel : Nat) (s : Scan) : Except String Scan := do
  let s ← s.noteKey
  let plain ← readPlain s.inFlow (s.indent + 1) fuel s.cursor
  return { s.push (.scalar .plain (String.ofList plain.text)) with
    cursor := plain.cursor, keyAllowed := plain.endsLine }

/-- A character that cannot start a plain scalar by itself. -/
def isIndicator (c : Char) : Bool :=
  "-?:,[]\x7b\x7d#&*!|>'\"%@\x60".toList.contains c

/-- Does a plain scalar start with `c`, followed by `d`? -/
def startsPlain (inFlow : Bool) (c : Char) (d : Option Char) : Bool :=
  (!isGap c && !isIndicator c) || (c == '-' && !d.any isSpaceOrTab) ||
    (!inFlow && (c == '?' || c == ':') && !isGapOrEnd d)

/-! ### The whole document -/

/-- Adds the token that starts with `c` at the cursor. -/
def scanToken (c : Char) (fuel : Nat) (s : Scan) : Except String Scan :=
  let following := s.cursor.peekAt 1
  let stands := s.inFlow || isGapOrEnd following
  if s.cursor.column == 0 && c == '%' then s.scanDirective
  else if s.cursor.isAtMark "---" then s.scanDocumentMark .documentStart
  else if s.cursor.isAtMark "..." then s.scanDocumentMark .documentEnd
  else if c == '[' then s.scanOpening .flowSequenceStart
  else if c == '\x7b' then s.scanOpening .flowMappingStart
  else if c == ']' then s.scanClosing .flowSequenceEnd
  else if c == '\x7d' then s.scanClosing .flowMappingEnd
  else if c == ',' then s.scanComma
  else if c == '-' && isGapOrEnd following then s.scanHyphen
  else if c == '?' && stands then s.scanQuestion
  else if c == ':' && stands then s.scanColon
  else if c == '*' then s.scanName .alias
  else if c == '&' then s.scanName .anchor
  else if c == '!' then s.scanTag
  else if c == '|' && !s.inFlow then s.scanBlock false fuel
  else if c == '>' && !s.inFlow then s.scanBlock true fuel
  else if c == '\'' then s.scanQuoted false fuel
  else if c == '"' then s.scanQuoted true fuel
  else if startsPlain s.inFlow c following then s.scanPlain fuel
  else .error "found character that cannot start any token"

/-- Reads on to the end of the document. Every token takes a character at least, so `fuel` stays
above the number of characters that are left. -/
def run : (fuel : Nat) → Scan → Except String (List Token)
  | 0, _ => .error "found unexpected end of stream"
  | fuel + 1, s => do
    let s ← (s.skipBlanks (fuel + 1)).dropStale
    match s.cursor.peek with
    | none => return (← s.closeAll).tokens
    | some c => run fuel (← (s.closeTo s.cursor.column).scanToken c (fuel + 1))

end Scan

/-- The characters of a document: every one must be allowed, and line ends are made one. -/
def prepare (text : String) : Except String (List Char) :=
  let cs := text.toList
  if cs.all isAllowed then .ok (unifyBreaks cs) else .error "control characters are not allowed"

/-- The tokens of a document. -/
def tokens (text : String) : Except String (List Token) := do
  let cs ← prepare text
  Scan.run (cs.length + 2) { cursor := { rest := cs } }

end ProgramGraph.Yaml
