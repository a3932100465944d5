import ProgramGraph.Config.Stage

/-!
# Configurations

A `Config` gathers the settings of the four stages and remembers the preset it started from.
`Config.ofPreset` gives the settings of a preset: only the fast one sets budgets.
-/

namespace ProgramGraph

/-- Named starting points for a configuration. -/
inductive Preset where
  | fast
  | balanced
  | thorough
  | custom
deriving DecidableEq, Repr, Inhabited

namespace Preset

def name : Preset → String
  | fast => "fast"
  | balanced => "balanced"
  | thorough => "thorough"
  | custom => "custom"

def all : List Preset := [fast, balanced, thorough, custom]

/-- The preset with a name, whatever the case of its letters. Only the case of ASCII letters
matters: no letter outside ASCII has a letter of one of the four names as its lower case. -/
def ofName? (s : String) : Option Preset :=
  all.find? fun p => p.name.toList == s.toList.map Char.toLower

end Preset

/-- Settings for all four stages. -/
structure Config where
  preset : Preset := .balanced
  taint : TaintConfig := {}
  slicing : SliceConfig := {}
  execution : ExecutionConfig := {}
  dataFlow : DataFlowConfig := {}
deriving DecidableEq, Repr, Inhabited

namespace Config

/-- The settings of a preset. -/
def ofPreset : Preset → Config
  | .fast =>
    { preset := .fast
      taint := { maxVisits := some 100000 }
      slicing := { maxDepth := some 64 }
      execution := { maxDepth := some 256, maxStates := some 100000 }
      dataFlow := { maxIterations := some 100000 } }
  | preset => { preset }

/-- Reports the first setting that is out of bounds, stage after stage. -/
def validate (c : Config) : Except ConfigError Unit := do
  c.taint.validate
  c.slicing.validate
  c.execution.validate
  c.dataFlow.validate

/-- The configuration itself, if it is valid. -/
def validated (c : Config) : Except ConfigError Config :=
  c.validate.map fun _ => c

/-- A budget in a summary. -/
def describeBudget : Option UInt64 → String
  | none => "unbounded"
  | some n => toString n.toNat

/-- A summary in one line: the preset and every budget. -/
def describe (c : Config) : String :=
  " ".intercalate
    ["preset=" ++ c.preset.name,
      "taint.max_visits=" ++ describeBudget c.taint.maxVisits,
      "slicing.max_depth=" ++ describeBudget c.slicing.maxDepth,
      "execution.max_depth=" ++ describeBudget c.execution.maxDepth,
      "execution.max_states=" ++ describeBudget c.execution.maxStates,
      "data_flow.max_iterations=" ++ describeBudget c.dataFlow.maxIterations]

end Config

end ProgramGraph
