/-!
# Tokens of a document

The marks, names and scalars of a document in the order in which they stand, with marks added where
indentation opens and closes a collection.
-/

namespace ProgramGraph.Yaml

/-- How a scalar is written. -/
inductive ScalarStyle where
  | plain
  | singleQuoted
  | doubleQuoted
  | literal
  | folded
deriving DecidableEq, Repr, Inhabited

/-- The tokens. -/
inductive Token where
  | versionDirective (major minor : Nat)
  /-- A handle, and the bytes that it stands for at the start of a tag. -/
  | tagDirective (handle : String) (stem : List UInt8)
  | documentStart
  | documentEnd
  | blockSequenceStart
  | blockMappingStart
  | blockEnd
  | flowSequenceStart
  | flowSequenceEnd
  | flowMappingStart
  | flowMappingEnd
  | blockEntry
  | flowEntry
  | key
  | value
  | alias (name : String)
  | anchor (name : String)
  /-- A tag: a handle that stands for its start, and the bytes of the rest. -/
  | tag (handle : String) (suffix : List UInt8)
  | scalar (style : ScalarStyle) (text : String)
deriving DecidableEq, Repr, Inhabited

end ProgramGraph.Yaml
