import ProgramGraph.Yaml.Character

/-!
# A place in a document

A `Cursor` holds what is left of a document and where that starts: the number of bytes before it,
the line, and the column, which is counted in characters.
-/

namespace ProgramGraph.Yaml

/-- A place in a document. -/
structure Cursor where
  rest : List Char
  index : Nat := 0
  line : Nat := 0
  column : Nat := 0

namespace Cursor

/-- The character at the cursor. -/
def peek (c : Cursor) : Option Char :=
  c.rest.head?

/-- The character `k` places on. -/
def peekAt (c : Cursor) (k : Nat) : Option Char :=
  c.rest[k]?

def isAtEnd (c : Cursor) : Bool :=
  c.rest.isEmpty

/-- Moves past one character. -/
def next (c : Cursor) : Cursor :=
  match c.rest with
  | [] => c
  | ch :: rest =>
    let index := c.index + ch.utf8Size
    if isBreak ch then { rest, index, line := c.line + 1, column := 0 }
    else { rest, index, line := c.line, column := c.column + 1 }

/-- Moves past `n` characters. -/
def advance (c : Cursor) : Nat → Cursor
  | 0 => c
  | n + 1 => c.next.advance n

/-- The longest run of characters with a property, and the place after it. -/
def span (c : Cursor) (p : Char → Bool) : List Char × Cursor :=
  let run := c.rest.takeWhile p
  (run, c.advance run.length)

/-- Moves past the longest run of characters with a property. -/
def skipWhile (c : Cursor) (p : Char → Bool) : Cursor :=
  (c.span p).2

/-- Do the next characters spell the text? -/
def startsWith (c : Cursor) (text : String) : Bool :=
  text.toList.isPrefixOf c.rest

/-- Is this a line that starts with the mark, followed by a blank or the end? -/
def isAtMark (c : Cursor) (mark : String) : Bool :=
  c.column == 0 && c.startsWith mark && isGapOrEnd (c.peekAt mark.length)

/-- Is this a line that starts or ends a document? -/
def isAtDocumentMark (c : Cursor) : Bool :=
  c.isAtMark "---" || c.isAtMark "..."

end Cursor

end ProgramGraph.Yaml
