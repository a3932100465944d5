import ProgramGraph.Error

/-!
# Settings of the four stages

Taint propagation, slicing, execution and data flow analysis each have a record of settings with
defaults, and a `validate` that reports the first setting that is out of bounds. A budget of `none`
never stops a stage.
-/

namespace ProgramGraph

/-! ### Checks shared by the stages -/

/-- A text that must not be empty. -/
def requireText (field text : String) : Except ConfigError Unit :=
  if text.isEmpty then .error (.emptyField field) else .ok ()

/-- A budget that, if there is one, lies between one and `max`. -/
def requireBudget (field : String) (budget : Option UInt64) (max : Nat) (hint : String) :
    Except ConfigError Unit :=
  match budget with
  | none => .ok ()
  | some n =>
    if 1 ≤ n.toNat ∧ n.toNat ≤ max then .ok ()
    else .error (.range field (toString n.toNat) "1" (toString max) hint)

/-! ### Taint propagation -/

/-- Which property marks a node as tainted, and how many visits one run may make. -/
structure TaintConfig where
  key : String := "tainted"
  value : String := "true"
  maxVisits : Option UInt64 := none
deriving DecidableEq, Repr, Inhabited

def TaintConfig.validate (c : TaintConfig) : Except ConfigError Unit := do
  requireText "taint_key" c.key
  requireText "taint_value" c.value
  requireBudget "max_visits" c.maxVisits 100000000 "Use no budget for unbounded propagation"

/-! ### Slicing -/

/-- How far a slice follows edges, and which edges. -/
structure SliceConfig where
  maxDepth : Option UInt64 := none
  /-- The edge property that holds the kind of an edge; without it every edge is followed. -/
  edgeKindKey : Option String := none
  /-- The kinds of edges that are followed. -/
  edgeKinds : List String := []
  /-- From how many criteria on a batch is worth splitting up. -/
  parallelThreshold : UInt64 := 4
deriving DecidableEq, Repr, Inhabited

def SliceConfig.validate (c : SliceConfig) : Except ConfigError Unit := do
  requireBudget "max_depth" c.maxDepth 1000000
    "Slice depth must be positive; omit it for a full closure"
  match c.edgeKindKey with
  | none => pure ()
  | some key =>
    requireText "edge_kind_key" key
    if c.edgeKinds.isEmpty then throw (.emptyField "edge_kinds")
  requireBudget "parallel_threshold" (some c.parallelThreshold) (Nat.pow 2 64 - 1)
    "Threshold counts criteria"

/-! ### Execution -/

/-- How processed nodes are marked, and how far an execution goes. -/
structure ExecutionConfig where
  markerKey : String := "symbolic_state"
  markerValue : String := "processed"
  markNodes : Bool := true
  maxDepth : Option UInt64 := none
  maxStates : Option UInt64 := none
deriving DecidableEq, Repr, Inhabited

def ExecutionConfig.validate (c : ExecutionConfig) : Except ConfigError Unit := do
  requireText "marker_key" c.markerKey
  requireText "marker_value" c.markerValue
  requireBudget "max_depth" c.maxDepth 1000000
    "Traversal depth bounds path length; omit it to follow every path"
  requireBudget "max_states" c.maxStates 100000000 "Use no budget to run to the fixed point"

/-! ### Data flow analysis -/

/-- Which properties describe the statement of a node, and how many steps a solution may take. -/
structure DataFlowConfig where
  defsKey : String := "defs"
  usesKey : String := "uses"
  exprKey : String := "expr"
  valueKey : String := "value"
  maxIterations : Option UInt64 := none
deriving DecidableEq, Repr, Inhabited

def DataFlowConfig.validate (c : DataFlowConfig) : Except ConfigError Unit := do
  requireText "defs_key" c.defsKey
  requireText "uses_key" c.usesKey
  requireText "expr_key" c.exprKey
  requireText "value_key" c.valueKey
  requireBudget "max_iterations" c.maxIterations 100000000
    "Use no budget to solve to the fixed point"

end ProgramGraph
