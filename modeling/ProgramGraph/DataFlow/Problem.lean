import ProgramGraph.Graph.Direction

/-!
# Data flow problems and their solutions

A problem gives a fact for each side of every node by equations: the fact on the side where facts
arrive is the meet of the facts that its neighbours on that side produce, or the boundary fact if
it has none, and the fact on the other side is the node's transfer of it.

`Problem.solve` solves the equations by iteration. All facts start as the initial one, and all
nodes are queued in order. A step takes the first node, computes its two facts, and if the
produced fact changed queues the nodes it flows to that are not queued. When the queue is empty no
equation is left to recompute; if the limit on steps comes first, the solution is called
truncated.

The queue of a problem need not ever be empty. `Problem.solveWithin` takes an optional budget, and
without one it has a solution only if the iteration ends.
-/

namespace ProgramGraph.DataFlow

universe u

/-- A data flow problem with facts of type `Fact`. -/
structure Problem (Fact : Type u) where
  name : String
  /-- The direction in which facts flow. -/
  direction : Direction
  /-- The fact that arrives where nothing flows in. -/
  boundary : Graph → Fact
  /-- The fact that every node starts with, on both sides. -/
  initial : Graph → Fact
  /-- Joins a further fact that arrives to those joined so far. -/
  meet : Fact → Fact → Fact
  /-- The fact that a node produces from the one that arrives. -/
  transfer : NodeId → Node → Fact → Fact

/-- Facts at entry to and exit from every node, in order, and how they were found. -/
structure Solution (Fact : Type u) where
  name : String
  direction : Direction
  before : Array Fact
  after : Array Fact
  /-- How many steps were taken. -/
  iterations : Nat
  /-- Did the limit stop the iteration? -/
  truncated : Bool
deriving DecidableEq

namespace Solution

variable {Fact : Type u}

/-- The fact at entry to a node of the graph. -/
def before? (s : Solution Fact) (n : NodeId) : Option Fact :=
  s.before[n.index]?

/-- The fact at exit from a node of the graph. -/
def after? (s : Solution Fact) (n : NodeId) : Option Fact :=
  s.after[n.index]?

end Solution

/-- The state of an iteration. -/
structure Iteration (Fact : Type u) where
  /-- The facts that arrive at each node. -/
  arriving : Array Fact
  /-- The facts that each node produces. -/
  produced : Array Fact
  queue : List NodeId
  iterations : Nat := 0
  truncated : Bool := false

namespace Problem

variable {Fact : Type u} (P : Problem Fact) (g : Graph)

/-- The nodes whose facts arrive at a node. -/
def sources (n : NodeId) : List NodeId :=
  g.adjacent P.direction.flip n

/-- The nodes to which a node's fact flows. -/
def targets (n : NodeId) : List NodeId :=
  g.adjacent P.direction n

/-- Joins facts from left to right; the boundary fact if there are none. -/
def meetAll : List Fact → Fact
  | [] => P.boundary g
  | fact :: facts => facts.foldl P.meet fact

/-- The fact that arrives at a node when each node produces the given facts. -/
def arrivingAt (produced : Array Fact) (n : NodeId) : Fact :=
  P.meetAll g ((P.sources g n).filterMap fun m => produced[m.index]?)

/-- Adds the nodes that are not queued at the end of a queue. -/
def enqueue (queue ns : List NodeId) : List NodeId :=
  ns.foldl (fun queue n => if n ∈ queue then queue else queue ++ [n]) queue

/-- Recomputes the facts of a node that was taken from the queue. -/
def step [DecidableEq Fact] (s : Iteration Fact) (n : NodeId) (rest : List NodeId) :
    Iteration Fact :=
  match g.node? n with
  | none => { s with queue := rest, iterations := s.iterations + 1 }
  | some node =>
    let arriving := P.arrivingAt g s.produced n
    let produced := P.transfer n node arriving
    let changed := s.produced[n.index]? ≠ some produced
    { s with
      arriving := s.arriving.setIfInBounds n.index arriving
      produced := if changed then s.produced.setIfInBounds n.index produced else s.produced
      queue := if changed then enqueue rest (P.targets g n) else rest
      iterations := s.iterations + 1 }

/-- Takes at most `limit` steps; a node that is still queued then means that the iteration is
truncated. -/
def iterate [DecidableEq Fact] : (limit : Nat) → Iteration Fact → Iteration Fact
  | 0, s => if s.queue.isEmpty then s else { s with truncated := true }
  | limit + 1, s =>
    match s.queue with
    | [] => s
    | n :: rest => iterate limit (P.step g s n rest)

/-- Every fact is the initial one, and every node is queued. -/
def start : Iteration Fact where
  arriving := Array.replicate g.nodeCount (P.initial g)
  produced := Array.replicate g.nodeCount (P.initial g)
  queue := g.nodeIds

/-- The facts of an iteration, sorted by the side of the node on which they stand. -/
def solution (s : Iteration Fact) : Solution Fact :=
  let (before, after) := match P.direction with
    | .forward => (s.arriving, s.produced)
    | .backward => (s.produced, s.arriving)
  { name := P.name
    direction := P.direction
    before
    after
    iterations := s.iterations
    truncated := s.truncated }

/-- Solves the problem in at most `limit` steps. -/
def solve [DecidableEq Fact] (limit : Nat) : Solution Fact :=
  P.solution (P.iterate g limit (P.start g))

/-- A step with the first node of the queue, if there is one. -/
def next [DecidableEq Fact] (s : Iteration Fact) : Iteration Fact :=
  match s.queue with
  | [] => s
  | n :: rest => P.step g s n rest

/-- Takes steps until the queue is empty. If it never is, there is no result: this is the least
function with its equation. -/
def iterateToEnd [DecidableEq Fact] (s : Iteration Fact) : Option (Iteration Fact) :=
  if s.queue.isEmpty then some s else iterateToEnd.comp (P.next g) s
partial_fixpoint monotonicity by
  intro rest rest' h s
  dsimp only
  split
  · exact .refl
  · exact h (P.next g s)

/-- Solves the problem within a budget of steps, or without one if the iteration ends by itself. -/
def solveWithin [DecidableEq Fact] : (budget : Option UInt64) → Option (Solution Fact)
  | some limit => some (P.solve g limit.toNat)
  | none => (P.iterateToEnd g (P.start g)).map P.solution

/-- As many steps as can be due when the fact that a node produces changes at most `height` times:
one for every node, and one for every target of a node whose fact changed. -/
def allowance (height : Nat) : Nat :=
  g.nodeCount + height * (g.nodeIds.flatMap (P.targets g)).length

end Problem

end ProgramGraph.DataFlow
