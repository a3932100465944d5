import ProgramGraph.Engine
import ProgramGraph.Proofs.Graph.Properties

/-!
# What each analysis reads

An analysis gives the same answer on two graphs that agree on what it reads. Here is, analysis by
analysis, what that is besides the shape of the graph.

* Slices read no node property (`Slice.extend_congr`); kinds are properties of edges.
* Executions read of a node what their hooks read (`Execution.run_congr`).
* Taint propagation reads the property that marks nodes as tainted (`Taint.propagate_congr`).
* A data flow analysis reads the statements of the nodes (`DataFlow.SameStatement`): the properties
  that say what a node defines, uses, computes and assigns.

Each statement follows the loop of its analysis: one step is the same on both graphs, and so is the
whole run.
-/

namespace ProgramGraph

open ProgramGraph.Graph (SameShape AgreesOff)

variable {g h : Graph}

/-! ### Slices -/

namespace Slice

/-- Which edges a slice follows depends on the edges only. -/
theorem follows_congr (hs : SameShape g h) (c : SliceConfig) : follows c h = follows c g := by
  funext e
  rw [follows, follows, hs.edge?_eq]

/-- Entering a node reads its neighbours and the edges to them. -/
theorem Closure.enter_congr (hs : SameShape g h) (c : SliceConfig) (d : Direction) (s : Closure)
    (n : NodeId) (depth : Nat) (rest : List (NodeId × Nat)) :
    s.enter c h d n depth rest = s.enter c g d n depth rest := by
  simp only [enter, frontier, hs.neighbours_eq, follows_congr hs]

/-- And so does a whole closure. -/
theorem Closure.go_congr (hs : SameShape g h) (c : SliceConfig) (d : Direction) (room : Nat)
    (s : Closure) : go c h d room s = go c g d room s := by
  induction room generalizing s with
  | zero => rfl
  | succ room ih =>
    rw [go, go]
    cases s.next? with
    | none => rfl
    | some next =>
      obtain ⟨n, depth, rest⟩ := next
      dsimp only
      rw [ih, enter_congr hs]

/-- **A closure reads no node property.** -/
theorem extend_congr (hs : SameShape g h) (c : SliceConfig) : extend c h = extend c g := by
  funext d start members
  simp only [extend, hs.resolve_eq, hs.nodeCount_eq, Closure.go_congr hs]

theorem extendForward_congr (hs : SameShape g h) (c : SliceConfig) :
    extendForward c h = extendForward c g := by
  funext start members
  rw [extendForward, extendForward, extend_congr hs]

/-- A slice in one direction depends on the shape of the graph only. -/
theorem directed_congr (hs : SameShape g h) (c : SliceConfig) : directed c h = directed c g := by
  funext d criterion
  rw [directed.eq_def, directed.eq_def, extend_congr hs, hs.resolve_eq]

/-- So does a chop, which is made of two of them, -/
theorem chop_congr (hs : SameShape g h) (c : SliceConfig) : chop c h = chop c g := by
  funext source target
  simp only [chop, forward, backward, directed_congr hs]

/-- and so does a slice of any kind. -/
theorem slice_congr (hs : SameShape g h) (c : SliceConfig) : slice c h = slice c g := by
  funext criterion kind
  cases kind with
  | backward => simp only [slice, backward, directed_congr hs]
  | forward => simp only [slice, forward, directed_congr hs]
  | hybrid => simp only [slice, hybrid, backward, forward, directed_congr hs]
  | chop => simp only [slice, chop_congr hs]

end Slice

/-! ### Executions -/

namespace Execution

universe u v

variable {State : Type u} {Memory : Type v} {hooks : Hooks State Memory}

/-- The hooks do the same at the two nodes of every handle. -/
def SameTransfer (hooks : Hooks State Memory) (g h : Graph) : Prop :=
  ∀ n node node', g.node? n = some node → h.node? n = some node' →
    hooks.transfer node' = hooks.transfer node

/-- Branches are made along the edges of a node. -/
theorem forkAll_congr (hs : SameShape g h) (s : State) (out : List (EdgeId × NodeId))
    (m : Memory) : forkAll hooks h s out m = forkAll hooks g s out m := by
  induction out generalizing m with
  | nil => rfl
  | cons entry out ih =>
    obtain ⟨e, t⟩ := entry
    simp only [forkAll, hs.edge?_eq, ih]

/-- What is done at a node depends on the node through the transfer only. -/
theorem process_congr (hs : SameShape g h) {node node' : Node}
    (htransfer : hooks.transfer node' = hooks.transfer node) (n : NodeId) (s : State)
    (w : Walk State Memory) : process hooks h n node' s w = process hooks g n node s w := by
  simp only [process, htransfer, hs.outgoing_eq, forkAll_congr hs]

/-- Hooks that hand the state on do not read the nodes at all. -/
theorem sameTransfer_pass : SameTransfer (Hooks.pass : Hooks State Unit) g h :=
  fun _ _ _ _ _ => rfl

variable [DecidableEq State]

/-- The search reads the shape of the graph, and the nodes through the transfer. -/
theorem enter_congr (hs : SameShape g h) (htransfer : SameTransfer hooks g h)
    (c : ExecutionConfig) (room : Nat) : enter hooks c h room = enter hooks c g room := by
  induction room with
  | zero =>
    funext path via n s w
    rw [enter.eq_def, enter.eq_def]
  | succ room ih =>
    funext path via n s w
    rw [enter.eq_def, enter.eq_def]
    rcases hs.node?_cases n with ⟨hnone, hnone'⟩ | ⟨node, node', hnode, hnode'⟩
    · simp only [hnone, hnone']
    · simp only [hnode, hnode', process_congr hs (htransfer n node node' hnode hnode'), ih]

/-- **An execution reads of a node what its hooks read.** -/
theorem run_congr (hs : SameShape g h) (htransfer : SameTransfer hooks g h)
    (c : ExecutionConfig) : run hooks c h = run hooks c g := by
  funext start s m
  simp only [run, hs.resolve_eq, hs.nodeCount_eq, enter_congr hs htransfer]

/-- Executions on graphs that agree find the same, and leave graphs that still agree. -/
theorem execute_congr {keys : List String} (hgh : AgreesOff keys g h)
    (htransfer : SameTransfer hooks g h) (c : ExecutionConfig) (start : Option NodeId) (s : State)
    (m : Memory) : (execute hooks c h start s m).1 = (execute hooks c g start s m).1 ∧
      AgreesOff keys (execute hooks c g start s m).2.1 (execute hooks c h start s m).2.1 := by
  simp only [execute, writeMarkers, run_congr hgh.toSameShape htransfer]
  refine ⟨trivial, ?_⟩
  split
  · exact hgh.setProperties _ _ _
  · exact hgh

end Execution

/-! ### Taint propagation -/

namespace Taint

variable {c : TaintConfig}

/-- Whether a node is tainted is read under the key of the taint. -/
theorem carries_congr {keys : List String} (hgh : AgreesOff keys g h) (hkey : c.key ∉ keys) :
    carries c h = carries c g := by
  funext n
  rw [carries, carries, hgh.property_eq n hkey]

section Run

variable (hs : SameShape g h) (hcarries : carries c h = carries c g)

include hs

/-- The next node to visit is found by its identifier. -/
theorem Run.next?_congr (r : Run) : r.next? h = r.next? g := by
  have hsettled : r.settled h = r.settled g := by
    funext n
    rw [settled, settled, hs.idOf_eq]
  rw [next?, next?, hsettled]

include hcarries

/-- A visit reads the marks and the targets of its node. -/
theorem Run.visit_congr (r : Run) (n : NodeId) (rest : List NodeId) :
    r.visit c h n rest = r.visit c g n rest := by
  have harrive : r.arrive c h n = r.arrive c g n := by
    rw [arrive, arrive, hs.idOf_eq, hcarries]
  have hmark : mark c h = mark c g := by
    funext r t
    rw [mark, mark, hs.idOf_eq, hcarries]
  rw [visit, visit, harrive, hmark, hs.idOf_eq, hs.successors_eq]

/-- And so does a run. -/
theorem Run.go_congr (left : Nat) (r : Run) : go c h left r = go c g left r := by
  induction left generalizing r with
  | zero => rw [go, go, next?_congr hs]
  | succ left ih =>
    rw [go, go, next?_congr hs]
    cases r.next? g with
    | none => rfl
    | some next =>
      obtain ⟨n, rest⟩ := next
      dsimp only
      rw [ih, visit_congr hs hcarries]

/-- **Taint propagation reads the property that marks nodes as tainted.** -/
theorem propagate_congr (entry : Option NodeId) : propagate c h entry = propagate c g entry := by
  simp only [propagate, visitLimit, hs.resolve_eq, hs.nodeCount_eq, Run.go_congr hs hcarries]

end Run

/-- Runs on graphs that agree on that property find the same, and leave graphs that still agree. -/
theorem analyze_congr {keys : List String} (hgh : AgreesOff keys g h) (hkey : c.key ∉ keys)
    (entry : Option NodeId) : (analyze c h entry).1 = (analyze c g entry).1 ∧
      AgreesOff keys (analyze c g entry).2 (analyze c h entry).2 := by
  have hfound := propagate_congr hgh.toSameShape (carries_congr hgh hkey) entry
  refine ⟨hfound, ?_⟩
  simp only [analyze, writeMarks, hfound]
  exact hgh.setProperties _ _ _

/-- Runs from one entry after the other read and write under the key of the taint only. -/
theorem analyzeEach_congr {keys : List String} (hgh : AgreesOff keys g h) (hkey : c.key ∉ keys)
    (entries : List NodeId) : (analyzeEach c h entries).1 = (analyzeEach c g entries).1 ∧
      AgreesOff keys (analyzeEach c g entries).2 (analyzeEach c h entries).2 := by
  induction entries generalizing g h with
  | nil => exact ⟨rfl, hgh⟩
  | cons entry entries ih =>
    obtain ⟨hfirst, hafter⟩ := analyze_congr hgh hkey (some entry)
    obtain ⟨hrest, hend⟩ := ih hafter
    simp only [analyzeEach]
    exact ⟨congrArg₂ List.cons hfirst hrest, hend⟩

/-- And so do runs from all tainted nodes. -/
theorem propagateAll_congr {keys : List String} (hgh : AgreesOff keys g h)
    (hkey : c.key ∉ keys) : (propagateAll c h).1 = (propagateAll c g).1 ∧
      AgreesOff keys (propagateAll c g).2 (propagateAll c h).2 := by
  have htainted : taintedNodes c h = taintedNodes c g := by
    rw [taintedNodes, taintedNodes, carries_congr hgh hkey, hgh.nodeIds_eq]
  obtain ⟨hfound, hend⟩ := analyzeEach_congr hgh hkey (taintedNodes c g)
  rw [propagateAll, propagateAll, htainted, analyzeMany, analyzeMany]
  exact ⟨congrArg (List.foldl Result.merge ∅) hfound, hend⟩

end Taint

/-! ### Data flow analyses -/

namespace DataFlow

/-- The nodes make the same statement: they define, use, compute and assign the same. -/
structure SameStatement (c : DataFlowConfig) (node node' : Node) : Prop where
  defs_eq : defs c node' = defs c node
  uses_eq : uses c node' = uses c node
  expressionOf_eq : expressionOf c node' = expressionOf c node
  value_eq : node'.properties.get c.valueKey = node.properties.get c.valueKey

/-- The names of the properties that a statement consists of. -/
def statementKeys (c : DataFlowConfig) : List String :=
  [c.defsKey, c.usesKey, c.exprKey, c.valueKey]

/-- The two nodes of every handle make the same statement. -/
def SameStatements (c : DataFlowConfig) (g h : Graph) : Prop :=
  ∀ n node node', g.node? n = some node → h.node? n = some node' → SameStatement c node node'

/-- Graphs that agree under the keys of statements have the same statements. -/
theorem sameStatements_of_agreesOff {c : DataFlowConfig} {keys : List String}
    (hgh : AgreesOff keys g h) (hkeys : ∀ key ∈ statementKeys c, key ∉ keys) :
    SameStatements c g h := by
  intro n node node' hnode hnode'
  have hget : ∀ key ∈ statementKeys c, node'.properties.get key = node.properties.get key :=
    fun key hkey => hgh.get_eq hnode hnode' (hkeys key hkey)
  simp only [statementKeys, List.forall_mem_cons] at hget
  obtain ⟨hdefs, huses, hexpr, hvalue, -⟩ := hget
  have huses' : uses c node' = uses c node := by
    rw [uses, uses, listedVariables, listedVariables, huses]
  refine ⟨?_, huses', ?_, hvalue⟩
  · rw [defs, defs, listedVariables, listedVariables, hdefs]
  · simp only [expressionOf, hexpr, huses']

/-- What is read off every statement of a graph is the same. -/
theorem SameStatements.map_nodes_eq {c : DataFlowConfig} {α : Type} {f : Node → α}
    (hst : SameStatements c g h) (hs : SameShape g h)
    (hf : ∀ node node', SameStatement c node node' → f node' = f node) :
    h.nodes.toList.map f = g.nodes.toList.map f := by
  refine List.ext_getElem? fun i => ?_
  have hnode : ∀ k : Graph, (k.nodes.toList.map f)[i]? = (k.node? ⟨i⟩).map f := fun k => by
    rw [List.getElem?_map, Array.getElem?_toList, Graph.node?]
  rw [hnode, hnode]
  rcases hs.node?_cases ⟨i⟩ with ⟨hnone, hnone'⟩ | ⟨node, node', hsome, hsome'⟩
  · rw [hnone, hnone']
  · rw [hsome, hsome', Option.map_some, Option.map_some, hf _ _ (hst _ _ _ hsome hsome')]

namespace Problem

variable {Fact : Type} {P : Problem Fact}

/-- The graphs pose the same problem: they have the same shape, and the problem reads the same off
both and off the two nodes of every handle. -/
structure SamePosed (P : Problem Fact) (g h : Graph) : Prop extends SameShape g h where
  boundary_eq : P.boundary h = P.boundary g
  initial_eq : P.initial h = P.initial g
  transfer_eq : ∀ n node node', g.node? n = some node → h.node? n = some node' →
    P.transfer n node' = P.transfer n node

namespace SamePosed

variable (hp : P.SamePosed g h)

include hp

/-- What arrives at a node depends on the neighbours of the node. -/
theorem arrivingAt_eq (produced : Array Fact) (n : NodeId) :
    P.arrivingAt h produced n = P.arrivingAt g produced n := by
  have hmeet : P.meetAll h = P.meetAll g := by
    funext facts
    cases facts with
    | nil => exact hp.boundary_eq
    | cons fact facts => rfl
  simp only [arrivingAt, sources, hp.adjacent_eq, hmeet]

theorem targets_eq : P.targets h = P.targets g := by
  funext n
  rw [targets, targets, hp.adjacent_eq]

theorem allowance_eq (height : Nat) : P.allowance h height = P.allowance g height := by
  rw [allowance, allowance, hp.targets_eq, hp.nodeCount_eq, hp.nodeIds_eq]

variable [DecidableEq Fact]

/-- A step reads a node through the transfer only. -/
theorem step_eq (s : Iteration Fact) (n : NodeId) (rest : List NodeId) :
    P.step h s n rest = P.step g s n rest := by
  rw [step, step, hp.targets_eq]
  rcases hp.node?_cases n with ⟨hnone, hnone'⟩ | ⟨node, node', hnode, hnode'⟩
  · simp only [hnone, hnone']
  · simp only [hnode, hnode', hp.arrivingAt_eq, hp.transfer_eq n node node' hnode hnode']

/-- And so does a whole iteration. -/
theorem iterate_eq (limit : Nat) (s : Iteration Fact) :
    P.iterate h limit s = P.iterate g limit s := by
  induction limit generalizing s with
  | zero => rfl
  | succ limit ih =>
    rw [iterate, iterate]
    cases s.queue with
    | nil => rfl
    | cons n rest =>
      dsimp only
      rw [ih, hp.step_eq]

/-- **A problem that is posed the same is solved the same.** -/
theorem solve_eq (limit : Nat) : P.solve h limit = P.solve g limit := by
  have hstart : P.start h = P.start g := by
    simp only [start, hp.nodeCount_eq, hp.nodeIds_eq, hp.initial_eq]
  simp only [solve, hp.iterate_eq, hstart]

end SamePosed

end Problem

section Analyses

variable {c : DataFlowConfig} (hs : SameShape g h) (hst : SameStatements c g h)

include hs hst

/-- The four analyses depend on the shape of the graph and on its statements. -/
theorem reachingDefinitions_congr : reachingDefinitions c h = reachingDefinitions c g := by
  have hposed : (ReachingDefinitions.problem c).SamePosed g h := by
    refine ⟨hs, rfl, rfl, fun n node node' hnode hnode' => ?_⟩
    have hdefs := (hst n node node' hnode hnode').defs_eq
    funext fact
    simp only [ReachingDefinitions.problem, ReachingDefinitions.transfer, ReachingDefinitions.made,
      hdefs]
  have hheight : ReachingDefinitions.height c h = ReachingDefinitions.height c g := by
    have hdefs := hst.map_nodes_eq hs (f := fun node => (defs c node).toList) fun _ _ hsame =>
      congrArg Std.ExtTreeSet.toList hsame.defs_eq
    simp only [ReachingDefinitions.height, List.flatMap_def, hdefs]
  simp only [reachingDefinitions, hposed.solve_eq, hposed.allowance_eq, hheight]

theorem liveVariables_congr : liveVariables c h = liveVariables c g := by
  have hposed : (LiveVariables.problem c).SamePosed g h := by
    refine ⟨hs, rfl, rfl, fun n node node' hnode hnode' => ?_⟩
    obtain ⟨hdefs, huses, -, -⟩ := hst n node node' hnode hnode'
    funext fact
    simp only [LiveVariables.problem, LiveVariables.transfer, hdefs, huses]
  have hheight : LiveVariables.height c h = LiveVariables.height c g := by
    have huses := hst.map_nodes_eq hs (f := uses c) fun _ _ hsame => hsame.uses_eq
    have hfold : ∀ k : Graph, LiveVariables.height c k =
        ((k.nodes.toList.map (uses c)).foldl (· ∪ ·) ∅).size := fun k => by
      rw [LiveVariables.height, List.foldl_map]
    rw [hfold, hfold, huses]
  simp only [liveVariables, hposed.solve_eq, hposed.allowance_eq, hheight]

theorem availableExpressions_congr : availableExpressions c h = availableExpressions c g := by
  have hexpressions :
      AvailableExpressions.expressions c h = AvailableExpressions.expressions c g := by
    have hmap := hst.map_nodes_eq hs (f := expressionOf c) fun _ _ hsame => hsame.expressionOf_eq
    have hlist := congrArg (List.filterMap id) hmap
    simp only [List.filterMap_map, Function.id_comp] at hlist
    rw [AvailableExpressions.expressions, AvailableExpressions.expressions, hlist]
  have hposed : (AvailableExpressions.problem c).SamePosed g h := by
    refine ⟨hs, rfl, hexpressions, fun n node node' hnode hnode' => ?_⟩
    obtain ⟨hdefs, -, hexpression, -⟩ := hst n node node' hnode hnode'
    funext fact
    simp only [AvailableExpressions.problem, AvailableExpressions.transfer,
      AvailableExpressions.generated, hdefs, hexpression]
  simp only [availableExpressions, hposed.solve_eq, hposed.allowance_eq,
    AvailableExpressions.height, hexpressions]

theorem constantPropagation_congr : constantPropagation c h = constantPropagation c g := by
  have hposed : (ConstantPropagation.problem c).SamePosed g h := by
    refine ⟨hs, rfl, rfl, fun n node node' hnode hnode' => ?_⟩
    obtain ⟨hdefs, huses, -, hvalue⟩ := hst n node node' hnode hnode'
    funext fact
    simp only [ConstantPropagation.problem, ConstantPropagation.transfer,
      ConstantPropagation.assigned, hdefs, huses, hvalue]
  have hheight : ConstantPropagation.height c h = ConstantPropagation.height c g := by
    have hdefs := hst.map_nodes_eq hs (f := defs c) fun _ _ hsame => hsame.defs_eq
    have hfold : ∀ k : Graph, ConstantPropagation.height c k =
        2 * ((k.nodes.toList.map (defs c)).foldl (· ∪ ·) ∅).size := fun k => by
      rw [ConstantPropagation.height, List.foldl_map]
    rw [hfold, hfold, hdefs]
  simp only [constantPropagation, hposed.solve_eq, hposed.allowance_eq, hheight]

end Analyses

end DataFlow

end ProgramGraph
