import ProgramGraph.Graph.Basic

/-!
# Results of taint propagation

`Taint.Result` says what one run found, and `Result.merge` joins the results of several runs.
-/

namespace ProgramGraph.Taint

/-- What one run found. -/
structure Result where
  /-- The entry, if it resolved. -/
  entry : Option NodeId := none
  /-- Identifiers of the nodes that were tainted when they were visited. -/
  taintedIds : NameSet := ∅
  /-- Nodes that were tainted when they were visited. -/
  sources : NodeSet := ∅
  /-- Nodes that the run tainted. -/
  marked : NodeSet := ∅
  /-- How many visits the run made; a node can be visited twice. -/
  visited : Nat := 0
  /-- Did the budget stop the run? -/
  truncated : Bool := false
deriving DecidableEq

namespace Result

instance : EmptyCollection Result := ⟨{}⟩

instance : Inhabited Result := ⟨∅⟩

/-- The tainted nodes: those found and those marked. -/
def nodes (r : Result) : NodeSet :=
  r.sources ∪ r.marked

/-- Was the node found tainted, or marked? -/
def isTainted (r : Result) (n : NodeId) : Bool :=
  r.sources.contains n || r.marked.contains n

/-- Was nothing found? -/
def isEmpty (r : Result) : Bool :=
  r.sources.isEmpty && r.marked.isEmpty

/-- Joins two results; the entry is that of the first one that has an entry. -/
def merge (r s : Result) : Result where
  entry := r.entry.or s.entry
  taintedIds := r.taintedIds ∪ s.taintedIds
  sources := r.sources ∪ s.sources
  marked := r.marked ∪ s.marked
  visited := r.visited + s.visited
  truncated := r.truncated || s.truncated

end Result

end ProgramGraph.Taint
