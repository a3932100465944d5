import ProgramGraph.Config.Stage
import ProgramGraph.Yaml.Value

/-!
# Sections of a configuration document

Each stage has a section in a document: a mapping from the names of its settings to their values.
A `Section` lists the settings of a stage with their names and types, and their defaults.
`Section.read` reads the entries of a mapping setting by setting, by name: an entry has to be the
only one with the name of a setting, and a setting without an entry has its default.
-/

namespace ProgramGraph

open Yaml (Value)

/-! ### Types of settings -/

/-- The types of single settings. -/
inductive BasicType where
  | text
  /-- Numbers that fit a word of 64 bits. -/
  | word
  | flag
deriving DecidableEq, Repr

/-- The types of settings. -/
inductive SettingType where
  | basic (type : BasicType)
  /-- A setting that may be missing. -/
  | optional (type : BasicType)
  | list (type : BasicType)
deriving DecidableEq, Repr

/-- What a single setting can be. -/
@[reducible]
def BasicType.Carrier : BasicType → Type
  | text => String
  | word => UInt64
  | flag => Bool

/-- What a setting can be. -/
@[reducible]
def SettingType.Carrier : SettingType → Type
  | basic type => type.Carrier
  | optional type => Option type.Carrier
  | list type => List type.Carrier

/-- Reads settings of every type from values. -/
abbrev SettingReader := (type : SettingType) → Value → Except String type.Carrier

/-! ### Fields and sections -/

/-- A setting of a stage: its name and its type, and how it is looked up and replaced. -/
structure Field (σ : Type) where
  name : String
  type : SettingType
  get : σ → type.Carrier
  set : type.Carrier → σ → σ

/-- The settings of a stage, in the order in which they are written, and their defaults. -/
structure Section (σ : Type) where
  fields : List (Field σ)
  initial : σ

/-- Replaces the setting by the value under its name, if there is one. -/
def Field.read {σ : Type} (reader : SettingReader) (f : Field σ) (entries : List (Value × Value))
    (s : σ) : Except String σ :=
  match Value.lookup entries f.name with
  | none => .ok s
  | some v => (reader f.type v).map (f.set · s)

namespace Section

/-- Is the key the name of a setting? -/
def knows {σ : Type} (sec : Section σ) (key : Value) : Bool :=
  sec.fields.any fun f => key.same (.string f.name)

/-- Reads the settings that the entries of a mapping name; the others have their defaults. Tags of
keys do not count. -/
def read {σ : Type} (reader : SettingReader) (sec : Section σ) (entries : List (Value × Value)) :
    Except String σ :=
  let entries := entries.map fun e => (e.1.untag, e.2)
  if Value.hasDuplicateKey entries then .error "duplicate field"
  else if !entries.all fun e => sec.knows e.1 then .error "unknown field"
  else sec.fields.foldlM (fun s f => f.read reader entries s) sec.initial

/-! ### The four stages -/

def taint : Section TaintConfig where
  fields :=
    [⟨"taint_key", .basic .text, TaintConfig.key, fun x s => { s with key := x }⟩,
      ⟨"taint_value", .basic .text, TaintConfig.value, fun x s => { s with value := x }⟩,
      ⟨"max_visits", .optional .word, TaintConfig.maxVisits, fun x s => { s with maxVisits := x }⟩]
  initial := {}

def slicing : Section SliceConfig where
  fields :=
    [⟨"max_depth", .optional .word, SliceConfig.maxDepth, fun x s => { s with maxDepth := x }⟩,
      ⟨"edge_kind_key", .optional .text, SliceConfig.edgeKindKey, fun x s =>
        { s with edgeKindKey := x }⟩,
      ⟨"edge_kinds", .list .text, SliceConfig.edgeKinds, fun x s => { s with edgeKinds := x }⟩,
      ⟨"parallel_threshold", .basic .word, SliceConfig.parallelThreshold, fun x s =>
        { s with parallelThreshold := x }⟩]
  initial := {}

def execution : Section ExecutionConfig where
  fields :=
    [⟨"marker_key", .basic .text, ExecutionConfig.markerKey, fun x s => { s with markerKey := x }⟩,
      ⟨"marker_value", .basic .text, ExecutionConfig.markerValue, fun x s =>
        { s with markerValue := x }⟩,
      ⟨"mark_nodes", .basic .flag, ExecutionConfig.markNodes, fun x s => { s with markNodes := x }⟩,
      ⟨"max_depth", .optional .word, ExecutionConfig.maxDepth, fun x s => { s with maxDepth := x }⟩,
      ⟨"max_states", .optional .word, ExecutionConfig.maxStates, fun x s =>
        { s with maxStates := x }⟩]
  initial := {}

def dataFlow : Section DataFlowConfig where
  fields :=
    [⟨"defs_key", .basic .text, DataFlowConfig.defsKey, fun x s => { s with defsKey := x }⟩,
      ⟨"uses_key", .basic .text, DataFlowConfig.usesKey, fun x s => { s with usesKey := x }⟩,
      ⟨"expr_key", .basic .text, DataFlowConfig.exprKey, fun x s => { s with exprKey := x }⟩,
      ⟨"value_key", .basic .text, DataFlowConfig.valueKey, fun x s => { s with valueKey := x }⟩,
      ⟨"max_iterations", .optional .word, DataFlowConfig.maxIterations, fun x s =>
        { s with maxIterations := x }⟩]
  initial := {}

end Section

end ProgramGraph
