/-!
# Tags

A tag in front of a node says what the node is. Escapes can put any bytes into a tag, so it is a
list of bytes; `Tag.ofBytes` sorts tags by what they do to the node.
-/

namespace ProgramGraph.Yaml

/-- The types that a tag can ask a scalar to have. -/
inductive ScalarType where
  | bool
  | int
  | float
  | null
deriving DecidableEq, Repr

namespace ScalarType

def all : List ScalarType := [bool, int, float, null]

def name : ScalarType → String
  | bool => "bool"
  | int => "int"
  | float => "float"
  | null => "null"

end ScalarType

/-- What a tag does to the node that it marks. -/
inductive Tag where
  /-- The text of a scalar has to fit the type. -/
  | standard (type : ScalarType)
  /-- A tag of the document's own, which stays beside the value. -/
  | own (name : String)
  /-- A tag of the document's own whose name is not a text: it counts for nothing. -/
  | nameless
  /-- Any other tag, which makes a scalar a text. -/
  | other
deriving DecidableEq, Repr

namespace Tag

/-- The bytes of a text. -/
def bytesOf (s : String) : List UInt8 :=
  s.toUTF8.toList

/-- The exclamation mark, which starts the tags of a document's own. -/
def mark : UInt8 := 0x21

/-- What the tags of the standard types start with. -/
def standardStem : List UInt8 := bytesOf "tag:yaml.org,2002:"

/-- Takes one mark off, unless nothing would be left. -/
def dropMark (bytes : List UInt8) : List UInt8 :=
  if bytes.head? == some mark && 1 < bytes.length then bytes.tail else bytes

/-- What a tag does. In a name a further mark at its start is not counted, and a mark without a name
is its own name. -/
def ofBytes (bytes : List UInt8) : Tag :=
  if bytes.head? == some mark then
    match String.fromUTF8? ⟨(dropMark (dropMark bytes)).toArray⟩ with
    | some name => own name
    | none => nameless
  else
    match ScalarType.all.find? fun t => bytes == standardStem ++ bytesOf t.name with
    | some type => standard type
    | none => other

/-- The handles that need no directive, and what they stand for. -/
def standardHandles : List (String × List UInt8) :=
  [("!", [mark]), ("!!", standardStem)]

end Tag

end ProgramGraph.Yaml
