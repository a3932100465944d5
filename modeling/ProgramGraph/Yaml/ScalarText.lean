import ProgramGraph.Text.Integer
import ProgramGraph.Yaml.Cursor

/-!
# Texts of scalars

Reads the text of a scalar from the place where it starts: plain, between quotes, or as a block of
indented lines. Each reader gives the text and the place after it. A text is put together from
pieces. `fuel` bounds the number of steps; one more than the number of characters left is enough.
-/

namespace ProgramGraph.Yaml

/-- The text that is made of pieces, of which the last one stands first. -/
def joinPieces (pieces : List (List Char)) : List Char :=
  pieces.reverse.flatten

/-! ### Plain scalars -/

/-- A mark that ends a plain scalar inside brackets. -/
def isFlowMark (c : Char) : Bool :=
  c == ',' || c == '[' || c == ']' || c == '\x7b' || c == '\x7d'

/-- The part of a plain scalar up to a blank, a line end, a colon before one of these, or inside
brackets a mark. Inside brackets a colon right before a mark is an error. -/
def plainWord (inFlow : Bool) : List Char → Except String (List Char)
  | [] => .ok []
  | c :: cs =>
    if isGap c then .ok []
    else if inFlow && c == ':' && cs.head?.any (fun d => isFlowMark d || d == '?') then
      .error "found unexpected ':'"
    else if c == ':' && isGapOrEnd cs.head? then .ok []
    else if inFlow && isFlowMark c then .ok []
    else (plainWord inFlow cs).map (c :: ·)

/-- Does a tab stand at the start of a line before the column of the indentation? -/
def hasEarlyTab (indent : Int) : List Char → (lineStart : Bool) → (column : Nat) → Bool
  | [], _, _ => false
  | c :: cs, lineStart, column =>
    if isBreak c then hasEarlyTab indent cs true 0
    else (lineStart && c == '\t' && (column : Int) < indent) ||
      hasEarlyTab indent cs lineStart (column + 1)

/-- A plain scalar that was read: its text, the place after it and the blanks that follow, and
whether a line ended among these. -/
structure PlainText where
  text : List Char
  cursor : Cursor
  endsLine : Bool

/-- Reads on after some pieces and the blanks `gap`. -/
def readPlainFrom (inFlow : Bool) (indent : Int) :
    (fuel : Nat) → Cursor → (pieces : List (List Char)) → (gap : List Char) →
      Except String PlainText
  | 0, c, pieces, gap => .ok ⟨joinPieces pieces, c, gap.any isBreak⟩
  | fuel + 1, c, pieces, gap =>
    if c.isAtDocumentMark || c.peek == some '#' then
      .ok ⟨joinPieces pieces, c, gap.any isBreak⟩
    else do
      let word ← plainWord inFlow c.rest
      if word.isEmpty then return ⟨joinPieces pieces, c, gap.any isBreak⟩
      let pieces := word :: foldGap gap :: pieces
      let (gap, c') := (c.advance word.length).span isGap
      if gap.isEmpty then return ⟨joinPieces pieces, c', false⟩
      if hasEarlyTab indent gap false 0 then
        throw "found a tab character that violates indentation"
      if !inFlow && (c'.column : Int) < indent then
        return ⟨joinPieces pieces, c', gap.any isBreak⟩
      readPlainFrom inFlow indent fuel c' pieces gap

/-- Reads a plain scalar; outside of brackets its further lines start at column `indent` or later.
-/
def readPlain (inFlow : Bool) (indent : Int) (fuel : Nat) (c : Cursor) : Except String PlainText :=
  readPlainFrom inFlow indent fuel c [] []

/-! ### Quoted scalars -/

/-- The escapes of one character: the letter after the backslash, and what the escape stands for. -/
def escapes : List (Char × Char) :=
  [('0', '\x00'), ('a', '\x07'), ('b', '\x08'), ('t', '\t'), ('n', '\n'), ('v', '\x0b'),
    ('f', '\x0c'), ('r', '\r'), ('e', '\x1b'), ('"', '"'), ('\\', '\\'), ('N', '\u0085'),
    ('_', '\u00a0'), ('L', '\u2028'), ('P', '\u2029'), ('\t', '\t'), (' ', ' '), ('/', '/')]

/-- How many hexadecimal digits follow an escape letter. -/
def hexLength? : Char → Option Nat
  | 'x' => some 2
  | 'u' => some 4
  | 'U' => some 8
  | _ => none

/-- The character that an escape stands for, from what follows the backslash, and how much of it
the escape takes. -/
def readEscape (cs : List Char) : Except String (Char × Nat) :=
  match cs with
  | [] => .error "found unexpected end of stream"
  | c :: cs =>
    match escapes.lookup c, hexLength? c with
    | some meant, _ => .ok (meant, 1)
    | none, some n =>
      let digits := cs.take n
      match if digits.length = n then Text.readNat? 16 digits else none with
      | none => .error "did not find expected hexadecimal number"
      | some code =>
        if code.isValidChar then .ok (Char.ofNat code, n + 1)
        else .error "found invalid Unicode character escape code"
    | none, none => .error "found unknown escape character"

/-- Reads on after some pieces up to the closing quote. -/
def readQuotedFrom (double : Bool) :
    (fuel : Nat) → Cursor → (pieces : List (List Char)) → Except String (List Char × Cursor)
  | 0, _, _ => .error "found unexpected end of stream"
  | fuel + 1, c, pieces =>
    if c.isAtDocumentMark then .error "found unexpected document indicator"
    else match c.rest with
      | [] => .error "found unexpected end of stream"
      | ch :: cs =>
        if isGap ch then
          let (gap, c) := c.span isGap
          readQuotedFrom double fuel c (foldGap gap :: pieces)
        else if !double && ch == '\'' then
          if cs.head? == some '\'' then readQuotedFrom double fuel (c.advance 2) (['\''] :: pieces)
          else .ok (joinPieces pieces, c.next)
        else if double && ch == '"' then .ok (joinPieces pieces, c.next)
        else if double && ch == '\\' then
          if cs.head?.any isBreak then
            -- An escaped line end joins the lines: only further line ends stay.
            let (gap, c) := (c.advance 2).span isGap
            readQuotedFrom double fuel c (gap.filter isBreak :: pieces)
          else do
            let (meant, n) ← readEscape cs
            readQuotedFrom double fuel (c.advance (n + 1)) ([meant] :: pieces)
        else readQuotedFrom double fuel c.next ([ch] :: pieces)

/-- Reads a quoted scalar, from its opening quote on. -/
def readQuoted (double : Bool) (fuel : Nat) (c : Cursor) : Except String (List Char × Cursor) :=
  readQuotedFrom double fuel c.next []

/-! ### Block scalars -/

/-- What becomes of the line ends after the last line of a block. -/
inductive Chomping where
  | strip
  | clip
  | keep
deriving DecidableEq, Repr

/-- The line after the mark of a block: how it ends, and how far it is indented if that is said. -/
structure BlockHeader where
  chomping : Chomping := .clip
  increment : Nat := 0
  cursor : Cursor

/-- Reads a chomping mark. -/
def readChomping (c : Cursor) : Option (Chomping × Cursor) :=
  match c.peek with
  | some '+' => some (.keep, c.next)
  | some '-' => some (.strip, c.next)
  | _ => none

/-- Reads an indentation mark, a digit other than zero. -/
def readIncrement (c : Cursor) : Except String (Option (Nat × Cursor)) :=
  match c.peek with
  | none => .ok none
  | some ch =>
    if !ch.isDigit then .ok none
    else if ch == '0' then .error "found an indentation indicator equal to 0"
    else .ok (some (ch.toNat - '0'.toNat, c.next))

/-- Reads the two marks of a header, in either order. -/
def readBlockMarks (c : Cursor) : Except String BlockHeader := do
  match readChomping c with
  | some (chomping, c) =>
    match ← readIncrement c with
    | some (increment, c) => return { chomping, increment, cursor := c }
    | none => return { chomping, cursor := c }
  | none =>
    match ← readIncrement c with
    | none => return { cursor := c }
    | some (increment, c) =>
      match readChomping c with
      | some (chomping, c) => return { chomping, increment, cursor := c }
      | none => return { increment, cursor := c }

/-- Reads the line of the header to its end. -/
def readBlockHeader (c : Cursor) : Except String BlockHeader := do
  let header ← readBlockMarks c
  let c := header.cursor.skipWhile isSpaceOrTab
  let c := if c.peek == some '#' then c.skipWhile (!isBreak ·) else c
  match c.peek with
  | none => return { header with cursor := c }
  | some ch =>
    if isBreak ch then return { header with cursor := c.next }
    else throw "did not find expected comment or line break"

/-- Moves past empty lines and the indentation of the next line that is not empty. Gives the line
ends met and the widest indentation met. An indentation of zero is not known yet, and any number
of spaces counts. -/
def skipIndentation (indent : Nat) :
    (fuel : Nat) → Cursor → (widest : Nat) → (breaks : List Char) →
      Except String (Cursor × Nat × List Char)
  | 0, c, widest, breaks => .ok (c, widest, breaks)
  | fuel + 1, c, widest, breaks =>
    let spaces := (c.rest.takeWhile (· == ' ')).length
    let c := c.advance (if indent = 0 then spaces else min spaces (indent - c.column))
    let widest := max widest c.column
    match c.peek with
    | none => .ok (c, widest, breaks)
    | some ch =>
      if (indent = 0 || c.column < indent) && ch == '\t' then
        .error "found a tab character where an indentation space is expected"
      else if isBreak ch then skipIndentation indent fuel c.next widest (breaks ++ [ch])
      else .ok (c, widest, breaks)

/-- A block while it is read: the pieces so far, the end of its last line, the line ends after that,
and whether the last line started with a blank. -/
structure BlockText where
  pieces : List (List Char) := []
  lineEnd : List Char := []
  breaks : List Char := []
  startedBlank : Bool := false

/-- What stands between the last line and another one: a folded block turns a single line end
between two lines that do not start with a blank into a space. -/
def BlockText.joint (b : BlockText) (isFolded startsBlank : Bool) : List Char :=
  if isFolded && b.lineEnd == ['\n'] && !b.startedBlank && !startsBlank then
    if b.breaks.isEmpty then [' '] else b.breaks
  else b.lineEnd ++ b.breaks

/-- Reads the lines of a block that are indented to the given column; `emptyLines` bounds the empty
lines between two of them. -/
def readBlockLines (isFolded : Bool) (indent emptyLines : Nat) :
    (fuel : Nat) → Cursor → BlockText → Except String (BlockText × Cursor)
  | 0, c, b => .ok (b, c)
  | fuel + 1, c, b =>
    if c.column ≠ indent || c.isAtEnd then .ok (b, c)
    else do
      let startsBlank := c.peek.any isSpaceOrTab
      let (line, c) := c.span (!isBreak ·)
      let lineEnd := c.peek.toList
      let (c, _, breaks) ← skipIndentation indent emptyLines c.next 0 []
      readBlockLines isFolded indent emptyLines fuel c
        { pieces := line :: b.joint isFolded startsBlank :: b.pieces
          lineEnd
          breaks
          startedBlank := startsBlank }

/-- Reads a block scalar, from its mark on, inside a collection that is indented to `outer`. -/
def readBlock (isFolded : Bool) (outer : Int) (fuel : Nat) (c : Cursor) :
    Except String (List Char × Cursor) := do
  let header ← readBlockHeader c.next
  let c := header.cursor
  let known := if header.increment = 0 then 0 else (max outer 0).toNat + header.increment
  let (c, widest, breaks) ← skipIndentation known fuel c 0 []
  let indent := if known = 0 then max (max widest (outer + 1).toNat) 1 else known
  let (b, c) ← readBlockLines isFolded indent fuel fuel c { breaks }
  let tail := match header.chomping with
    | .strip => []
    | .clip => b.lineEnd
    | .keep => b.lineEnd ++ b.breaks
  return (joinPieces (tail :: b.pieces), c)

end ProgramGraph.Yaml
