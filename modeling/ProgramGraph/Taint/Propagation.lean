import ProgramGraph.Config.Stage
import ProgramGraph.Taint.Result

/-!
# Taint propagation

A node is tainted when a given property holds a given text. A run starts at an entry, visits nodes
over outgoing edges first come, first served, and marks the targets of every tainted node it visits.

Nodes are visited once per *identifier*: a node whose identifier was visited is passed over. A
node that is marked only after its identifier was visited is visited once more, so that its mark
travels on. A run therefore makes at most one visit per identifier and one per marked node, and `2
* n` visits are enough for `n` nodes.

`propagate` leaves the graph alone, `analyze` also writes the marks, and `analyzeMany` and
`propagateAll` run from several entries in turn, each run on the graph that the one before it left.
-/

namespace ProgramGraph.Taint

/-- Does the property of the node hold the text that stands for taint? -/
def carries (c : TaintConfig) (g : Graph) (n : NodeId) : Bool :=
  g.property n c.key == c.value

/-- The state of a run: what is left to visit, which identifiers were visited, which nodes are due
for a second visit, and what was found so far. -/
structure Run where
  queue : List NodeId
  seen : NameSet := ∅
  revisit : NodeSet := ∅
  found : Result := ∅

namespace Run

/-- A queued node that needs no visit. -/
def settled (g : Graph) (r : Run) (n : NodeId) : Bool :=
  r.seen.contains (g.idOf n) && !r.revisit.contains n

/-- The next node to visit and the queue after it. -/
def next? (g : Graph) (r : Run) : Option (NodeId × List NodeId) :=
  match r.queue.dropWhile (r.settled g) with
  | [] => none
  | n :: rest => some (n, rest)

/-- Counts a visit, and records the node if it is tainted. -/
def arrive (c : TaintConfig) (g : Graph) (r : Run) (n : NodeId) : Run :=
  let tainted := carries c g n || r.found.marked.contains n
  { r with
    seen := r.seen.insert (g.idOf n)
    revisit := r.revisit.erase n
    found := { r.found with
      visited := r.found.visited + 1
      taintedIds :=
        if tainted then r.found.taintedIds.insert (g.idOf n) else r.found.taintedIds
      sources := if tainted then r.found.sources.insert n else r.found.sources } }

/-- Marks a node that is not tainted yet. If its identifier was visited, and not found tainted, the
node is due for a second visit. -/
def mark (c : TaintConfig) (g : Graph) (r : Run) (t : NodeId) : Run :=
  if carries c g t || r.found.marked.contains t then r
  else
    let late := r.seen.contains (g.idOf t) && !r.found.taintedIds.contains (g.idOf t)
    { r with
      revisit := if late then r.revisit.insert t else r.revisit
      found := { r.found with marked := r.found.marked.insert t } }

/-- Visits a node: if its identifier is tainted its targets are marked, and in any case they are
queued. -/
def visit (c : TaintConfig) (g : Graph) (r : Run) (n : NodeId) (rest : List NodeId) : Run :=
  let targets := g.successors n
  let r := r.arrive c g n
  let r := if r.found.taintedIds.contains (g.idOf n) then targets.foldl (mark c g) r else r
  { r with queue := rest ++ targets }

/-- Makes at most `left` visits; a visit that is still due then means that the run is truncated. -/
def go (c : TaintConfig) (g : Graph) : (left : Nat) → Run → Run
  | 0, r =>
    match r.next? g with
    | none => r
    | some _ => { r with found := { r.found with truncated := true } }
  | left + 1, r =>
    match r.next? g with
    | none => r
    | some (n, rest) => go c g left (r.visit c g n rest)

end Run

/-- How many visits a run may make: the budget, or without one as many as can ever be due. -/
def visitLimit (c : TaintConfig) (g : Graph) : Nat :=
  match c.maxVisits with
  | some budget => budget.toNat
  | none => 2 * g.nodeCount

/-- Propagates taint from an entry without touching the graph; nothing is found if the entry is
missing. -/
def propagate (c : TaintConfig) (g : Graph) (entry : Option NodeId) : Result :=
  match g.resolve entry with
  | none => ∅
  | some n => (Run.go c g (visitLimit c g) { queue := [n], found := { entry := some n } }).found

/-- Writes the taint text on the nodes that a run marked. -/
def writeMarks (c : TaintConfig) (g : Graph) (r : Result) : Graph :=
  g.setProperties r.marked.toList c.key c.value

/-- Propagates taint from an entry and writes the marks. -/
def analyze (c : TaintConfig) (g : Graph) (entry : Option NodeId) : Result × Graph :=
  let r := propagate c g entry
  (r, writeMarks c g r)

/-- Runs from each entry in turn, and gives the result of each run and the graph after all of
them. -/
def analyzeEach (c : TaintConfig) (g : Graph) : List NodeId → List Result × Graph
  | [] => ([], g)
  | entry :: entries =>
    let (r, g) := analyze c g (some entry)
    let (rs, g) := analyzeEach c g entries
    (r :: rs, g)

/-- Runs from each entry in turn and joins the results. -/
def analyzeMany (c : TaintConfig) (g : Graph) (entries : List NodeId) : Result × Graph :=
  let (rs, g) := analyzeEach c g entries
  (rs.foldl Result.merge ∅, g)

/-- The nodes that are tainted, in order. -/
def taintedNodes (c : TaintConfig) (g : Graph) : List NodeId :=
  g.nodeIds.filter (carries c g)

/-- Runs from every node that is tainted before the first run. -/
def propagateAll (c : TaintConfig) (g : Graph) : Result × Graph :=
  analyzeMany c g (taintedNodes c g)

end ProgramGraph.Taint
