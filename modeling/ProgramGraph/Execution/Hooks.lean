import ProgramGraph.Graph.Basic

/-!
# What nodes and edges do to a state

An execution carries a state along paths. `Hooks` say what a node does to the state it is entered
with, and which state, if any, goes on along an edge. Hooks may keep a memory of their own from
one call to the next; for pure hooks that memory is `Unit`.
-/

namespace ProgramGraph.Execution

universe u v

/-- What nodes and edges do to a state, with a memory that each call may read and replace. -/
structure Hooks (State : Type u) (Memory : Type v) where
  /-- The state after a node, from the state it was entered with. -/
  transfer : Node → State → Memory → State × Memory
  /-- The state that goes on along an edge, or none if the branch is pruned. -/
  fork : Edge → State → Memory → Option State × Memory

namespace Hooks

/-- Hooks without a memory. -/
def pure {State : Type u} (transfer : Node → State → State)
    (fork : Edge → State → Option State) : Hooks State Unit where
  transfer node s _ := (transfer node s, ())
  fork edge s _ := (fork edge s, ())

/-- Nodes leave the state as it is, and every branch is taken. -/
def pass {State : Type u} : Hooks State Unit :=
  pure (fun _ s => s) (fun _ s => some s)

end Hooks

end ProgramGraph.Execution
