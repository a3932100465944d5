import ProgramGraph.Config.Stage
import ProgramGraph.Graph.Direction

/-!
# Closures under followed edges

`Slice.extend` adds to a set of nodes everything that can be reached from a start over followed
edges in a direction. It goes breadth first, so that the depth at which a node is first met is the
least one. Nodes that are in the set already are not entered again; in particular a start that is
already a member adds nothing.

Edges are followed up to a depth. An edge that leads out of the set at the greatest depth is not
followed, and the closure is then called truncated.
-/

namespace ProgramGraph.Slice

/-- Is the edge of a kind that is followed? -/
def follows (c : SliceConfig) (g : Graph) (e : EdgeId) : Bool :=
  match c.edgeKindKey with
  | none => true
  | some key => (g.edge? e).any fun edge => c.edgeKinds.contains (edge.properties.get key)

/-- May edges be followed from a node met at this depth? -/
def withinDepth (c : SliceConfig) (depth : Nat) : Bool :=
  c.maxDepth.all (depth < ·.toNat)

/-- The state of a closure: the set so far, and the nodes to enter with the depth at which they were
met. -/
structure Closure where
  members : NodeSet
  queue : List (NodeId × Nat)
  truncated : Bool := false

namespace Closure

/-- The next node to enter, its depth, and the queue after it. -/
def next? (s : Closure) : Option (NodeId × Nat × List (NodeId × Nat)) :=
  match s.queue.dropWhile (s.members.contains ·.1) with
  | [] => none
  | (n, depth) :: rest => some (n, depth, rest)

/-- The ends outside of the set of the followed edges of a node. -/
def frontier (c : SliceConfig) (g : Graph) (d : Direction) (members : NodeSet) (n : NodeId) :
    List NodeId :=
  ((g.neighbours d n).filter fun (e, t) => !members.contains t && follows c g e).map Prod.snd

/-- Enters a node, and queues what its followed edges lead to unless the depth is used up. -/
def enter (c : SliceConfig) (g : Graph) (d : Direction) (s : Closure) (n : NodeId) (depth : Nat)
    (rest : List (NodeId × Nat)) : Closure :=
  let members := s.members.insert n
  let ahead := frontier c g d members n
  if withinDepth c depth then
    { members, queue := rest ++ ahead.map (·, depth + 1), truncated := s.truncated }
  else
    { members, queue := rest, truncated := s.truncated || !ahead.isEmpty }

/-- Enters at most `room` nodes. -/
def go (c : SliceConfig) (g : Graph) (d : Direction) : (room : Nat) → Closure → Closure
  | 0, s => s
  | room + 1, s =>
    match s.next? with
    | none => s
    | some (n, depth, rest) => go c g d room (s.enter c g d n depth rest)

end Closure

/-- Adds the closure of a start to a set, and says whether the depth cut it short. A start that is
missing adds nothing. Every node entered is a new member, so as many steps as there are nodes are
enough. -/
def extend (c : SliceConfig) (g : Graph) (d : Direction) (start : Option NodeId)
    (members : NodeSet) : NodeSet × Bool :=
  match g.resolve start with
  | none => (members, false)
  | some n =>
    let s := Closure.go c g d g.nodeCount { members, queue := [(n, 0)] }
    (s.members, s.truncated)

/-- Adds the forward closure of a start to a set. -/
def extendForward (c : SliceConfig) (g : Graph) (start : Option NodeId) (members : NodeSet) :
    NodeSet :=
  (extend c g .forward start members).1

/-- Adds the backward closure of a start to a set. -/
def extendBackward (c : SliceConfig) (g : Graph) (start : Option NodeId) (members : NodeSet) :
    NodeSet :=
  (extend c g .backward start members).1

end ProgramGraph.Slice
