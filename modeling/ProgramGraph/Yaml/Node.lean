import ProgramGraph.Yaml.TokenStream

/-!
# Nodes of a document

A `Node` is a scalar, a sequence or a mapping with its tag, or a reference to another node.
`Tree.ofText` reads the one document of a text and replaces every reference by what it refers to.
-/

namespace ProgramGraph.Yaml

/-- A part of a document, with references of the given type to other parts. -/
inductive Node (ref : Type) where
  | scalar (tag : Option Tag) (style : ScalarStyle) (text : String)
  | sequence (tag : Option Tag) (items : List (Node ref))
  | mapping (tag : Option Tag) (entries : List (Node ref × Node ref))
  | reference (target : ref)
deriving Repr, Inhabited

/-- A document without references. -/
abbrev Tree := Node Empty

namespace Node

/-- What stands where nothing is written. -/
def absent {ref : Type} : Node ref :=
  .scalar none .plain ""

mutual

/-- The number of marks that the node is made of: one for a scalar or a reference, and two, around
its parts, for a collection. -/
def marks {ref : Type} : Node ref → Nat
  | scalar .. => 1
  | reference _ => 1
  | sequence _ items => 2 + itemMarks items
  | mapping _ entries => 2 + entryMarks entries

/-- The number of marks that the items are made of. -/
def itemMarks {ref : Type} : List (Node ref) → Nat
  | [] => 0
  | n :: items => n.marks + itemMarks items

/-- The number of marks that the entries are made of. -/
def entryMarks {ref : Type} : List (Node ref × Node ref) → Nat
  | [] => 0
  | (k, v) :: entries => k.marks + v.marks + entryMarks entries

end

end Node

/-! ### Anchors -/

/-- A document while its nodes are read. An anchor gets as its number the count of names known
before it, so a name that is used again shares its number with the next new name. A number stands
for the last anchored node that got it. -/
structure Builder where
  tokens : List Token
  /-- What each handle of a tag stands for. -/
  handles : List (String × List UInt8) := []
  /-- The number of each name. -/
  names : List (String × Nat) := []
  /-- The anchored node that each number stands for, by the order in which these nodes start. -/
  owners : List (Nat × Nat) := []
  /-- The anchored nodes that have been read. -/
  anchored : List (Nat × Node Nat) := []

/-- Readers of a part of a document. -/
abbrev Reader := StateT Builder (Except String)

namespace Reader

/-- The next token. -/
def peek : Reader (Option Token) := do
  return (← get).tokens.head?

/-- Is one of the tokens next? -/
def sees (ts : List Token) : Reader Bool := do
  return (← peek).any (· ∈ ts)

/-- Moves past a token. -/
def skip : Reader Unit :=
  modify fun b => { b with tokens := b.tokens.tail }

/-- Moves past the token if it is next. -/
def skipIf (t : Token) : Reader Bool := do
  let found ← sees [t]
  if found then skip
  return found

/-- Reads a node, unless one of the tokens shows that there is none. -/
def readUnless (ends : List Token) (read : Reader (Node Nat)) : Reader (Node Nat) := do
  if ← sees ends then return .absent else read

/-- Notes that an anchored node starts, and gives its place among the anchored nodes. -/
def startAnchor (name : String) : Reader Nat := do
  let b ← get
  let number := (b.names.map Prod.fst).eraseDups.length
  let place := b.owners.length
  set { b with names := (name, number) :: b.names, owners := (number, place) :: b.owners }
  return place

/-- Notes that the anchored node at a place has been read. -/
def endAnchor (place : Nat) (node : Node Nat) : Reader Unit :=
  modify fun b => { b with anchored := (place, node) :: b.anchored }

/-- The number that a name has now. -/
def numberOf (name : String) : Reader Nat := do
  match (← get).names.lookup name with
  | some number => return number
  | none => throw "unknown anchor"

/-! ### Collections -/

/-- The items of a sequence that is closed by indentation. -/
def blockItems (read : Reader (Node Nat)) : (fuel : Nat) → Reader (List (Node Nat))
  | 0 => throw "did not find expected '-' indicator"
  | fuel + 1 => do
    if ← skipIf .blockEntry then
      let item ← readUnless [.blockEntry, .blockEnd] read
      return item :: (← blockItems read fuel)
    else if ← skipIf .blockEnd then return []
    else throw "did not find expected '-' indicator"

/-- The items of a sequence that stands at the column of the mapping around it. -/
def flushItems (read : Reader (Node Nat)) : (fuel : Nat) → Reader (List (Node Nat))
  | 0 => return []
  | fuel + 1 => do
    if ← skipIf .blockEntry then
      let item ← readUnless [.blockEntry, .key, .value, .blockEnd] read
      return item :: (← flushItems read fuel)
    else return []

/-- The entries of a mapping that is closed by indentation. -/
def blockEntries (read : Reader (Node Nat)) : (fuel : Nat) → Reader (List (Node Nat × Node Nat))
  | 0 => throw "did not find expected key"
  | fuel + 1 => do
    if ← skipIf .key then
      let key ← readUnless [.key, .value, .blockEnd] read
      let value ←
        if ← skipIf .value then readUnless [.key, .value, .blockEnd] read else pure .absent
      return (key, value) :: (← blockEntries read fuel)
    else if ← skipIf .blockEnd then return []
    else throw "did not find expected key"

/-- Moves past the comma that stands before every part of a collection in brackets but the first. -/
def comma (first : Bool) : Reader Unit := do
  unless first do
    unless ← skipIf .flowEntry do throw "did not find expected ',' or closing bracket"

/-- A single entry that stands as an item of a sequence in brackets. -/
def pair (read : Reader (Node Nat)) : Reader (Node Nat) := do
  let key ←
    if ← sees [.value, .flowEntry, .flowSequenceEnd] then do skip; pure .absent else read
  let value ←
    if ← skipIf .value then readUnless [.flowEntry, .flowSequenceEnd] read else pure .absent
  return .mapping none [(key, value)]

/-- The items of a sequence in brackets, after its opening bracket or an item. -/
def flowItems (read : Reader (Node Nat)) (first : Bool) : (fuel : Nat) → Reader (List (Node Nat))
  | 0 => throw "did not find expected ',' or closing bracket"
  | fuel + 1 => do
    if ← skipIf .flowSequenceEnd then return []
    comma first
    if ← skipIf .flowSequenceEnd then return []
    let item ← if ← skipIf .key then pair read else read
    return item :: (← flowItems read false fuel)

/-- The entries of a mapping in brackets, after its opening bracket or an entry. -/
def flowEntries (read : Reader (Node Nat)) (first : Bool) :
    (fuel : Nat) → Reader (List (Node Nat × Node Nat))
  | 0 => throw "did not find expected ',' or closing bracket"
  | fuel + 1 => do
    if ← skipIf .flowMappingEnd then return []
    comma first
    if ← skipIf .flowMappingEnd then return []
    let entry ← if ← skipIf .key then do
        let key ← readUnless [.value, .flowEntry, .flowMappingEnd] read
        let value ←
          if ← skipIf .value then readUnless [.flowEntry, .flowMappingEnd] read else pure .absent
        pure (key, value)
      else do
        let key ← read
        pure (key, .absent)
    return entry :: (← flowEntries read false fuel)

/-! ### Nodes -/

/-- The tag that a handle and a rest stand for. -/
def resolveTag (handle : String) (suffix : List UInt8) : Reader Tag := do
  if handle.isEmpty then return .ofBytes suffix
  match (← get).handles.lookup handle with
  | some stem => return .ofBytes (stem ++ suffix)
  | none => throw "found undefined tag handle"

/-- The anchor that is next, if one is. -/
def anchor? : Reader (Option String) := do
  match ← peek with
  | some (.anchor name) => skip; return some name
  | _ => return none

/-- The tag that is next, if one is. -/
def tag? : Reader (Option Tag) := do
  match ← peek with
  | some (.tag handle suffix) => skip; return some (← resolveTag handle suffix)
  | _ => return none

/-- The anchor and the tag before a node, in either order. -/
def properties : Reader (Option String × Option Tag) := do
  match ← anchor? with
  | some name => return (some name, ← tag?)
  | none =>
    match ← tag? with
    | some tag => return (← anchor?, some tag)
    | none => return (none, none)

/-- Where a node stands: inside brackets, as an item or the root, or as a key or a value, where the
hyphens of a sequence may stand at the column of the mapping. -/
inductive Context where
  | flow
  | block
  | entry
deriving DecidableEq, Repr

/-- A bound for the number of parts of the collection that is next: every part has a token. -/
def partsBound : Reader Nat := do
  return (← get).tokens.length + 1

/-- Reads what follows the anchor and the tag of a node, with a reader for the nodes inside it. -/
def content (read : Context → Reader (Node Nat)) (context : Context) (tag : Option Tag)
    (mayBeAbsent : Bool) : Reader (Node Nat) := do
  match context, ← peek with
  | .entry, some .blockEntry => return .sequence tag (← flushItems (read .block) (← partsBound))
  | _, some (.scalar style text) => skip; return .scalar tag style text
  | _, some .flowSequenceStart =>
    skip; return .sequence tag (← flowItems (read .flow) true (← partsBound))
  | _, some .flowMappingStart =>
    skip; return .mapping tag (← flowEntries (read .flow) true (← partsBound))
  | .block, some .blockSequenceStart
  | .entry, some .blockSequenceStart =>
    skip; return .sequence tag (← blockItems (read .block) (← partsBound))
  | .block, some .blockMappingStart
  | .entry, some .blockMappingStart =>
    skip; return .mapping tag (← blockEntries (read .entry) (← partsBound))
  | _, _ =>
    if mayBeAbsent then return .scalar tag .plain ""
    else throw "did not find expected node content"

/-- Reads a node in which nodes are nested at most `depth` deep. -/
def node : (depth : Nat) → Context → Reader (Node Nat)
  | 0, _ => throw "recursion limit exceeded"
  | depth + 1, context => do
    if let some (.alias name) ← peek then
      skip
      return .reference (← numberOf name)
    match ← properties with
    | (none, tag) => content (node depth) context tag tag.isSome
    | (some name, tag) =>
      let place ← startAnchor name
      let result ← content (node depth) context tag true
      endAnchor place result
      return result

/-! ### Documents -/

/-- Reads the directives in front of a document; tells whether there are any. -/
def directives (hasVersion : Bool) : (fuel : Nat) → Reader Bool
  | 0 => return false
  | fuel + 1 => do
    match ← peek with
    | some (.versionDirective major minor) =>
      if hasVersion then throw "found duplicate %YAML directive"
      unless major = 1 ∧ (minor = 1 ∨ minor = 2) do throw "found incompatible YAML document"
      skip
      discard (directives true fuel)
      return true
    | some (.tagDirective handle stem) =>
      if ((← get).handles.lookup handle).isSome then throw "found duplicate %TAG directive"
      modify fun b => { b with handles := (handle, stem) :: b.handles }
      skip
      discard (directives hasVersion fuel)
      return true
    | _ => return false

/-- Moves past the marks that end a document. -/
def skipDocumentEnds : (fuel : Nat) → Reader Unit
  | 0 => return
  | fuel + 1 => do if ← skipIf .documentEnd then skipDocumentEnds fuel

/-- Reads the root of the one document. Only a document that is opened by a mark may be empty. A
directive for a standard handle goes before what the handle stands for by itself. -/
def document (depth : Nat) : Reader (Node Nat) := do
  let fuel ← partsBound
  let hasDirectives ← directives false fuel
  modify fun b => { b with handles := b.handles ++ Tag.standardHandles }
  let isExplicit ← skipIf .documentStart
  if hasDirectives && !isExplicit then throw "did not find expected <document start>"
  let isEmpty := (← peek).all fun
    | .versionDirective .. | .tagDirective .. | .documentStart | .documentEnd => true
    | _ => false
  let root ← if isExplicit && isEmpty then pure .absent else node depth .block
  skipDocumentEnds fuel
  unless (← peek).isNone do throw "expected a single document"
  return root

end Reader

/-! ### References -/

/-- How deep collections may be nested. -/
def depthLimit : Nat := 128

/-- Replaces a node that is a reference by what it refers to. The state counts how many references
may still be followed. -/
def follow (target? : Nat → Option (Node Nat)) (n : Node Nat) :
    StateT Nat (Except String) (Node Nat) := do
  match n with
  | .reference i =>
    match ← get, target? i with
    | left + 1, some n => set left; return n
    | _, _ => throw "repetition limit exceeded"
  | n => return n

/-- Replaces the references in a node by what they refer to, where collections may be nested at most
`depth` deep. -/
def expand (target? : Nat → Option (Node Nat)) :
    (depth : Nat) → Node Nat → StateT Nat (Except String) Tree
  | 0, n => do
    match ← follow target? n with
    | .scalar tag style text => return .scalar tag style text
    | _ => throw "recursion limit exceeded"
  | depth + 1, n => do
    match ← follow target? n with
    | .scalar tag style text => return .scalar tag style text
    | .sequence tag items => return .sequence tag (← items.mapM (expand target? depth))
    | .mapping tag entries =>
      return .mapping tag (← entries.mapM fun (k, v) =>
        return (← expand target? depth k, ← expand target? depth v))
    | .reference _ => throw "recursion limit exceeded"

/-- How often, for each mark of a document, a reference may be followed. -/
def referencesPerMark : Nat := 100

/-- Reads the one document of a text. -/
def Tree.ofText (text : String) : Except String Tree := do
  let (root, b) ← (Reader.document (depthLimit + 2)).run { tokens := ← tokens text }
  let target? := fun i => (b.owners.lookup i).bind (List.lookup · b.anchored)
  let (tree, _) ← (expand target? depthLimit root).run (referencesPerMark * root.marks)
  return tree

end ProgramGraph.Yaml
