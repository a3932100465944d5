import ProgramGraph.Graph.Basic

/-!
# Depth-first pre-order

`Graph.reachableFrom` lists the nodes that a walk over outgoing edges can reach, each once, in
depth-first pre-order: a node stands before what it leads to, and its targets follow in list order.

The walk keeps the nodes still to be entered on a stack. One step drops the entries that were
entered in the meantime and enters the next one; since every step enters another node of the graph,
as many steps as there are nodes are enough.
-/

namespace ProgramGraph.Graph

/-- The state of a walk: the nodes entered, newest first, and the nodes to enter, next one first. -/
structure Preorder where
  entered : List NodeId := []
  seen : NodeSet := ∅
  stack : List NodeId

namespace Preorder

/-- The next node to enter and what stays on the stack after it. -/
def next? (w : Preorder) : Option (NodeId × List NodeId) :=
  match w.stack.dropWhile w.seen.contains with
  | [] => none
  | n :: rest => some (n, rest)

/-- Enters a node: its targets not yet entered go on top of the stack, first target first. -/
def enter (g : Graph) (w : Preorder) (n : NodeId) (rest : List NodeId) : Preorder :=
  let seen := w.seen.insert n
  { entered := n :: w.entered
    seen
    stack := (g.successors n).filter (!seen.contains ·) ++ rest }

/-- Enters at most `room` nodes. -/
def run (g : Graph) : (room : Nat) → Preorder → Preorder
  | 0, w => w
  | room + 1, w =>
    match w.next? with
    | none => w
    | some (n, rest) => run g room (w.enter g n rest)

end Preorder

/-- The nodes reachable over outgoing edges in depth-first pre-order, the start first; none if the
start is missing. -/
def reachableFrom (g : Graph) (start : Option NodeId) : List NodeId :=
  match g.resolve start with
  | none => []
  | some n => (Preorder.run g g.nodeCount { stack := [n] }).entered.reverse

end ProgramGraph.Graph
