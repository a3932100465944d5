import ProgramGraph.Graph.Basic

/-!
# What an execution did

`Execution.Trace` lists the nodes in the order in which they were processed, with the states they
were entered with, the edges that closed a cycle, and counts of finished paths and pruned
branches.
-/

namespace ProgramGraph.Execution

universe u

/-- What an execution did. -/
structure Trace (State : Type u) where
  /-- The entry, if it resolved. -/
  entry : Option NodeId := none
  /-- The states that each processed node was entered with, in the order of their arrival. -/
  states : Std.ExtTreeMap NodeId (List State) := ∅
  /-- The nodes in the order in which they were processed, once per state. -/
  order : Array NodeId := #[]
  /-- The edges that led back to a node of the path, in the order in which they were met. -/
  backEdges : Array EdgeId := #[]
  /-- How often a node without targets was processed. -/
  completedPaths : Nat := 0
  /-- How many branches the hooks pruned. -/
  pruned : Nat := 0
  /-- Did a budget cut the execution short? -/
  truncated : Bool := false

namespace Trace

variable {State : Type u}

instance : EmptyCollection (Trace State) := ⟨{}⟩

instance : Inhabited (Trace State) := ⟨∅⟩

/-- The states that a node was entered with; none if it was not processed. -/
def statesAt (t : Trace State) (n : NodeId) : List State :=
  t.states.getD n []

def isProcessed (t : Trace State) (n : NodeId) : Bool :=
  t.states.contains n

/-- The processed nodes, in order of their handles. -/
def processed (t : Trace State) : List NodeId :=
  t.states.keys

/-- How often a node was processed. -/
def timesProcessed (t : Trace State) (n : NodeId) : Nat :=
  (t.statesAt n).length

/-- How many pairs of a node and a state were processed. -/
def stateCount (t : Trace State) : Nat :=
  t.order.size

/-- Records that a node is processed with a state. -/
def record (t : Trace State) (n : NodeId) (s : State) : Trace State :=
  { t with
    states := t.states.insert n (t.statesAt n ++ [s])
    order := t.order.push n }

/-- Records that an edge leads back to a node of the path; entering without an edge records
nothing. -/
def recordBackEdge (t : Trace State) : Option EdgeId → Trace State
  | none => t
  | some e => { t with backEdges := t.backEdges.push e }

end Trace

end ProgramGraph.Execution
