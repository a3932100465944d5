import ProgramGraph.Config.Stage
import ProgramGraph.Execution.Hooks
import ProgramGraph.Execution.Trace

/-!
# Carrying a state along every path

An execution enters a node with a state, records the pair, lets the hooks change the state, asks
them for the state of every outgoing branch, and then enters the targets in list order, depth
first.

A target that lies on the path that leads to it closes a cycle: its edge is recorded, and it is
not entered again. A node that was processed with an equal state before is not processed again. A
path can therefore not be longer than the graph has nodes, which is what the walk recurs on.

A budget can bound the length of the paths and the number of processed pairs; what it cuts off is
reported as `truncated`.
-/

namespace ProgramGraph.Execution

universe u v

variable {State : Type u} {Memory : Type v}

/-- A branch of a node: the edge, its target, and the state that goes on along it. -/
structure Branch (State : Type u) where
  edge : EdgeId
  target : NodeId
  state : State

/-- The branches of a node that the hooks let through, how many they pruned, and their memory after
they were asked for each edge in order. -/
def forkAll (h : Hooks State Memory) (g : Graph) (s : State) :
    List (EdgeId × NodeId) → Memory → List (Branch State) × Nat × Memory
  | [], m => ([], 0, m)
  | (e, t) :: out, m =>
    match g.edge? e with
    | none => forkAll h g s out m
    | some edge =>
      match h.fork edge s m with
      | (some s', m) =>
        let (branches, pruned, m) := forkAll h g s out m
        (⟨e, t, s'⟩ :: branches, pruned, m)
      | (none, m) =>
        let (branches, pruned, m) := forkAll h g s out m
        (branches, pruned + 1, m)

/-- Is a node at this depth, after this many processed pairs, beyond a budget? -/
def overBudget (c : ExecutionConfig) (depth count : Nat) : Bool :=
  c.maxDepth.any (·.toNat < depth) || c.maxStates.any (·.toNat ≤ count)

/-- The state of an execution: what it did so far, and the memory of the hooks. -/
structure Walk (State : Type u) (Memory : Type v) where
  trace : Trace State
  memory : Memory

/-- Processes a node with a state: records the pair, applies the hooks, and gives the branches to
follow. -/
def process (h : Hooks State Memory) (g : Graph) (n : NodeId) (node : Node) (s : State)
    (w : Walk State Memory) : List (Branch State) × Walk State Memory :=
  let (s', m) := h.transfer node s w.memory
  let out := g.outgoing n
  let (branches, pruned, m) := forkAll h g s' out m
  let trace := w.trace.record n s
  (branches,
    { trace := { trace with
        pruned := trace.pruned + pruned
        completedPaths := if out.isEmpty then trace.completedPaths + 1 else trace.completedPaths }
      memory := m })

/-- Enters a node over an edge with a state, after the nodes of a path, and then everything it leads
to. No node is twice on a path, so its size is the depth of the node that is entered; `room` is the
number of nodes that are not on it. -/
def enter [DecidableEq State] (h : Hooks State Memory) (c : ExecutionConfig) (g : Graph) :
    (room : Nat) → (path : Std.ExtTreeSet NodeId) → Option EdgeId → NodeId → State →
      Walk State Memory → Walk State Memory
  | room, path, via, n, s, w =>
    if path.contains n then { w with trace := w.trace.recordBackEdge via }
    else if s ∈ w.trace.statesAt n then w
    else if overBudget c path.size w.trace.stateCount then
      { w with trace := { w.trace with truncated := true } }
    else
      match room, g.node? n with
      | room + 1, some node =>
        let (branches, w) := process h g n node s w
        let path := path.insert n
        branches.foldl (fun w b => enter h c g room path (some b.edge) b.target b.state w) w
      | _, _ => w

/-- Executes from an entry with a state, without touching the graph; a missing entry does nothing.
-/
def run [DecidableEq State] (h : Hooks State Memory) (c : ExecutionConfig) (g : Graph)
    (entry : Option NodeId) (s : State) (m : Memory) : Trace State × Memory :=
  match g.resolve entry with
  | none => (∅, m)
  | some n =>
    let w := enter h c g g.nodeCount ∅ none n s ⟨{ entry := some n }, m⟩
    (w.trace, w.memory)

/-- Writes the marker on every processed node, unless markers are off. -/
def writeMarkers (c : ExecutionConfig) (g : Graph) (t : Trace State) : Graph :=
  if c.markNodes then g.setProperties t.processed c.markerKey c.markerValue else g

/-- Executes from an entry with a state and writes the markers. -/
def execute [DecidableEq State] (h : Hooks State Memory) (c : ExecutionConfig) (g : Graph)
    (entry : Option NodeId) (s : State) (m : Memory) : Trace State × Graph × Memory :=
  let (t, m) := run h c g entry s m
  (t, writeMarkers c g t, m)

/-! ### Exploring a whole graph -/

/-- The nodes without present predecessors, in order; if there are none, the first node. -/
def roots (g : Graph) : List NodeId :=
  match g.nodeIds.filter fun n => (g.incoming n).isEmpty with
  | [] => g.nodeIds.take 1
  | roots => roots

/-- Executes from each of the nodes in turn with an empty bag and without hooks. -/
def executeEach (c : ExecutionConfig) (g : Graph) : List NodeId → List (Trace Bag) × Graph
  | [] => ([], g)
  | n :: ns =>
    let (t, g, _) := execute Hooks.pass c g (some n) ∅ ()
    let (ts, g) := executeEach c g ns
    (t :: ts, g)

/-- Executes from every root. -/
def explore (c : ExecutionConfig) (g : Graph) : List (Trace Bag) × Graph :=
  executeEach c g (roots g)

end ProgramGraph.Execution
