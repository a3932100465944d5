import ProgramGraph.Yaml.Node
import ProgramGraph.Yaml.Value

/-!
# What the nodes of a document mean

`Value.ofTree` gives the value of a node: plain scalars are resolved by their spelling, a tag of a
standard type is obeyed, and no mapping may have the same key twice.
-/

namespace ProgramGraph.Yaml.Value

/-! ### Scalars -/

/-- The value of a plain scalar. -/
def ofPlain (text : String) : Except String Value :=
  match PlainValue.ofText text with
  | .null => .ok .null
  | .bool b => .ok (.bool b)
  | .int i => .ok (.int i)
  | .wide => .error "integer of more than 64 bits"
  | .float _ => .ok (.float text)
  | .text => .ok (.string text)

/-- The value of a scalar without a tag: what is quoted or written as a block is a text. -/
def ofUntagged (style : ScalarStyle) (text : String) : Except String Value :=
  if style = .plain then ofPlain text else .ok (.string text)

/-- The value of a scalar that a tag asks to have a type. -/
def ofTyped (type : ScalarType) (text : String) : Except String Value :=
  match type with
  | .bool =>
    match PlainValue.bool? text with
    | some b => .ok (.bool b)
    | none => .error "expected a boolean"
  | .int =>
    match PlainValue.integer? text.toList with
    | some i =>
      if -Int.pow 2 63 ≤ i && i < Int.pow 2 64 then .ok (.int i)
      else .error "expected an integer"
    | none => .error "expected an integer"
  | .float =>
    if (PlainValue.float? text.toList).isSome then .ok (.float text) else .error "expected a float"
  | .null => if text ∈ PlainValue.nullNames then .ok .null else .error "expected null"

/-- The value of a scalar. -/
def ofScalar (tag : Option Tag) (style : ScalarStyle) (text : String) : Except String Value :=
  match tag with
  | none | some .nameless => ofUntagged style text
  | some (.own name) => (ofUntagged style text).map (tagged name)
  | some (.standard type) => ofTyped type text
  | some .other => .ok (.string text)

/-- Marks a value with a tag of the document's own, if it has one. -/
def withTag (tag : Option Tag) (v : Value) : Value :=
  match tag with
  | some (.own name) => .tagged name v
  | _ => v

/-! ### Documents -/

mutual

/-- What a part of a document means. No mapping may have the same key twice. -/
def ofTree : Tree → Except String Value
  | .scalar tag style text => ofScalar tag style text
  | .sequence tag items => do return withTag tag (sequence (← ofItems items))
  | .mapping tag entries => do
    let values ← ofEntries entries
    if hasDuplicateKey values then throw "duplicate entry"
    return withTag tag (mapping values)

/-- What the items of a sequence mean. -/
def ofItems : List Tree → Except String (List Value)
  | [] => .ok []
  | n :: items => do return (← ofTree n) :: (← ofItems items)

/-- What the entries of a mapping mean. -/
def ofEntries : List (Tree × Tree) → Except String (List (Value × Value))
  | [] => .ok []
  | (k, v) :: entries => do return (← ofTree k, ← ofTree v) :: (← ofEntries entries)

end

end ProgramGraph.Yaml.Value
