import ProgramGraph.Config.Document
import ProgramGraph.Yaml.Meaning
import ProgramGraph.Yaml.Printer

/-!
# Configurations in YAML

`Format.yaml` is the format in which configurations are read and written: its documents are YAML
texts, and it writes a stage as the mapping of its settings.
-/

namespace ProgramGraph

open Yaml (Tree Value)

/-! ### Settings -/

/-- Reads a single setting. Tags do not count. -/
def BasicType.ofValue : (type : BasicType) → Value → Except String type.Carrier
  | text, v => match v.untag with
    | .string s => .ok s
    | _ => .error "expected a string"
  | word, v => match v.untag with
    | .int i =>
      if 0 ≤ i ∧ i < Int.pow 2 64 then .ok (UInt64.ofNat i.toNat)
      else .error "number out of range"
    | _ => .error "expected a number"
  | flag, v => match v.untag with
    | .bool b => .ok b
    | _ => .error "expected a boolean"

/-- Writes a single setting. -/
def BasicType.toValue : (type : BasicType) → type.Carrier → Value
  | text, s => .string s
  | word, n => .int n.toNat
  | flag, b => .bool b

namespace SettingType

/-- Reads a setting. A null without a tag is a missing setting, and any null is an empty list. -/
def ofValue : (type : SettingType) → Value → Except String type.Carrier
  | basic type, v => type.ofValue v
  | optional type, v => match v with
    | .null => .ok none
    | v => (type.ofValue v).map some
  | list type, v => match v.untag with
    | .null => .ok []
    | .sequence items => items.mapM type.ofValue
    | _ => .error "expected a sequence"

/-- Writes a setting. -/
def toValue : (type : SettingType) → type.Carrier → Value
  | basic type, a => type.toValue a
  | optional _, none => .null
  | optional type, some a => type.toValue a
  | list type, items => .sequence (items.map type.toValue)

end SettingType

namespace Section

variable {σ : Type}

/-- The mapping of all settings of a stage. -/
def toValue (sec : Section σ) (s : σ) : Value :=
  .mapping (sec.fields.map fun f => (.string f.name, f.type.toValue (f.get s)))

/-- Reads the settings of a stage; null stands for the defaults. -/
def ofValue (sec : Section σ) (v : Value) : Except String σ :=
  match v.untag with
  | .null => .ok sec.initial
  | .mapping entries => sec.read SettingType.ofValue entries
  | _ => .error "expected a mapping"

end Section

/-! ### Documents -/

namespace Document

/-- The names of the entries of a document. -/
def entryNames : List String :=
  ["version", "preset", "taint", "slicing", "execution", "data_flow"]

/-- The text of a scalar, however it is written. -/
def textOf : Tree → Except String String
  | .scalar _ _ text => .ok text
  | _ => .error "expected a string"

/-- A version number, which is written plain, or as a block of lines if its tag makes it a number.
-/
def versionOf : Tree → Except String Nat
  | .scalar tag style text =>
    if style = .plain ∨ (style = .literal ∧ tag = some (.standard .int)) then
      match Yaml.PlainValue.word? text with
      | some n => if n < Nat.pow 2 32 then .ok n else .error "version out of range"
      | none => .error "expected a number"
    else .error "expected a number"
  | _ => .error "expected a number"

/-- The section of a stage; null is the same as no section. -/
def sectionOf : Tree → Except String (Option Value)
  | .scalar none .plain text =>
    if text.isEmpty ∨ text ∈ Yaml.PlainValue.nullNames then .ok none
    else (Value.ofTree (.scalar none .plain text)).map some
  | .scalar (some (.standard .null)) .plain text =>
    if text ∈ Yaml.PlainValue.nullNames then .ok none else .error "expected null"
  | t => (Value.ofTree t).map some

/-- Does every entry have a name of its own that a document may have? -/
def checkNames : List String → Except String Unit
  | [] => .ok ()
  | name :: names =>
    if name ∉ entryNames then .error ("unknown field " ++ name)
    else if name ∈ names then .error ("duplicate field " ++ name)
    else checkNames names

/-- The part with a name, which has to be there. -/
def require (entries : List (String × Tree)) (name : String) : Except String Tree :=
  match entries.lookup name with
  | some t => .ok t
  | none => .error ("missing field " ++ name)

/-- The section with a name, if there is one. -/
def section? (entries : List (String × Tree)) (name : String) : Except String (Option Value) :=
  match entries.lookup name with
  | some t => sectionOf t
  | none => .ok none

/-- Reads a document. -/
def ofTree : Tree → Except String Document
  | .mapping _ entries => do
    let entries ← entries.mapM fun (k, v) => return (← textOf k, v)
    checkNames (entries.map Prod.fst)
    return {
      version := ← versionOf (← require entries "version")
      preset := ← textOf (← require entries "preset")
      taint := ← section? entries "taint"
      slicing := ← section? entries "slicing"
      execution := ← section? entries "execution"
      dataFlow := ← section? entries "data_flow" }
  | _ => .error "expected a mapping"

/-- The entries of a document; a section that it does not have is left out. -/
def toValue (d : Document) : Value :=
  let sections := [("taint", d.taint), ("slicing", d.slicing), ("execution", d.execution),
    ("data_flow", d.dataFlow)]
  .mapping
    ([(.string "version", .int d.version), (.string "preset", .string d.preset)] ++
      sections.filterMap fun (name, sec) => sec.map fun v => (.string name, v))

end Document

/-- Documents as YAML texts. -/
def Format.yaml : Format where
  parse text := Tree.ofText text >>= Document.ofTree
  print d := .ok d.toValue.print
  readSetting := SettingType.ofValue
  toValue sec s := .ok (sec.toValue s)
  ofValue sec v := sec.ofValue v

end ProgramGraph
