import Mathlib.Order.WellFoundedSet
import ProgramGraph.Proofs.Engine.Footprint
import ProgramGraph.Proofs.Execution.Coverage

/-!
# Exploring a whole graph

An exploration executes from every root, one root after the other, and each execution writes its
markers before the next one starts. The executions do not read what the others wrote, so each does
what it would do on the graph as it was (`executeEach_eq`), and in the end the nodes within reach of
a root have their marker.

Whether these are all nodes is a question about the graph. In a cycle that nothing leads to, no node
is a root. In a graph without cycles, climbing from a node to a predecessor and so on comes to an
end, at a root, and the way back leads down to the node again (`exists_isRoot_reaches`).
-/

namespace ProgramGraph

open Relation (ReflTransGen TransGen)

/-! ### Roots -/

namespace Graph

variable {g : Graph} {n : NodeId}

/-- A node without predecessors; or the first node, in a graph whose nodes all have some. -/
def IsRoot (g : Graph) (n : NodeId) : Prop :=
  g.contains n = true ∧ (g.predecessors n = [] ∨
    n = ⟨0⟩ ∧ ∀ m, g.contains m = true → g.predecessors m ≠ [])

/-- **In a graph without cycles every node is within reach of a root.** By induction along the
cycle-free relation of coming before a node, which is well-founded on the finitely many nodes. -/
theorem exists_isRoot_reaches (hg : g.Consistent .forward) (hacyclic : ∀ m, ¬ TransGen g.Leads m m)
    (hn : g.contains n = true) : ∃ r, g.IsRoot r ∧ ReflTransGen g.Leads r n := by
  have hfinite : {m | g.contains m = true}.Finite :=
    g.nodeIds.finite_toSet.subset fun m hm => mem_nodeIds.mpr hm
  have : IsStrictOrder NodeId (TransGen g.Leads) :=
    { irrefl := hacyclic, trans := fun _ _ _ => TransGen.trans }
  have hwf := hfinite.wellFoundedOn (r := TransGen g.Leads)
  refine hwf.induction hn (P := fun n => ∃ r, g.IsRoot r ∧ ReflTransGen g.Leads r n) ?_
  intro m hm ih
  cases hpredecessors : g.predecessors m with
  | nil => exact ⟨m, ⟨hm, Or.inl hpredecessors⟩, .refl⟩
  | cons p rest =>
    have hp : p ∈ g.predecessors m := hpredecessors ▸ List.mem_cons_self
    have hleads : g.Leads p m := hg m p hp
    obtain ⟨r, hr, hreach⟩ := ih p (contains_of_adjacent_mem (d := .forward) hleads)
      (.single hleads)
    exact ⟨r, hr, hreach.tail hleads⟩

/-! ### Written graphs -/

/-- The second graph is the first with a property written on the nodes with `P`; the other nodes are
as they were. -/
structure WrittenOn (g g' : Graph) (key value : String) (P : NodeId → Prop) : Prop where
  edges_eq : g'.edges = g.edges
  node?_of : ∀ n, P n → g'.node? n =
    (g.node? n).map fun node => { node with properties := node.properties.set key value }
  node?_of_not : ∀ n, ¬ P n → g'.node? n = g.node? n

/-- Writing a property on a list of nodes writes it on exactly these. -/
theorem writtenOn_setProperties {ns : List NodeId} {P : NodeId → Prop} (h : ∀ n, n ∈ ns ↔ P n)
    (key value : String) : g.WrittenOn (g.setProperties ns key value) key value P where
  edges_eq := (sameShape_setProperties g ns key value).edges_eq
  node?_of n hn := by rw [node?_setProperties, if_pos ((h n).mpr hn)]
  node?_of_not n hn := by rw [node?_setProperties, if_neg (mt (h n).mp hn)]

end Graph

namespace Execution

open ProgramGraph.Graph (SameShape)

universe u v

variable {c : ExecutionConfig} {g : Graph} {n : NodeId}

theorem mem_take_one_nodeIds : n ∈ g.nodeIds.take 1 ↔ g.contains n = true ∧ n = ⟨0⟩ := by
  rw [Graph.nodeIds, ← List.map_take, List.take_range, List.mem_map, Graph.contains_iff]
  constructor
  · rintro ⟨i, hi, rfl⟩
    obtain ⟨hone, hlt⟩ := lt_min_iff.mp (List.mem_range.mp hi)
    exact ⟨hlt, by rw [Nat.lt_one_iff.mp hone]⟩
  · rintro ⟨hlt, rfl⟩
    exact ⟨0, List.mem_range.mpr (lt_min Nat.one_pos hlt), rfl⟩

/-- The roots are the nodes with no predecessor, or the first node if there are none. -/
theorem mem_roots_iff : n ∈ roots g ↔ g.IsRoot n := by
  have hempty : ∀ m, (g.incoming m).isEmpty = true ↔ g.predecessors m = [] := fun m => by
    rw [Graph.predecessors, List.map_eq_nil_iff, List.isEmpty_iff]
  rw [roots, Graph.IsRoot]
  split
  · rename_i hnone
    -- every node has predecessors, so only the first node is left
    have hall : ∀ m, g.contains m = true → g.predecessors m ≠ [] := fun m hm hpredecessors =>
      List.filter_eq_nil_iff.mp hnone m (Graph.mem_nodeIds.mpr hm) ((hempty m).mpr hpredecessors)
    rw [mem_take_one_nodeIds]
    exact ⟨fun ⟨hn, hzero⟩ => ⟨hn, Or.inr ⟨hzero, hall⟩⟩,
      fun ⟨hn, h⟩ => ⟨hn, (h.resolve_left (hall n hn)).1⟩⟩
  · rename_i hsome
    rw [List.mem_filter, Graph.mem_nodeIds, hempty]
    refine and_congr_right fun _ => (or_iff_left ?_).symm
    rintro ⟨-, hall⟩
    refine hsome (List.filter_eq_nil_iff.mpr fun m hm hpredecessors => ?_)
    exact hall m (Graph.mem_nodeIds.mp hm) ((hempty m).mp hpredecessors)

/-- Roots are taken in the order of their handles. -/
theorem pairwise_roots : (roots g).Pairwise fun m n => m.index < n.index := by
  have hnodeIds : g.nodeIds.Pairwise fun m n => m.index < n.index :=
    List.pairwise_map.mpr List.pairwise_lt_range
  rw [roots]
  split
  · exact hnodeIds.sublist (List.take_sublist 1 _)
  · exact hnodeIds.sublist List.filter_sublist

/-! ### One execution after the other -/

/-- The entry that resolved is kept. -/
theorem Descends.entry_eq {State : Type u} {Memory : Type v} [DecidableEq State]
    {h : Hooks State Memory} {path : NodeSet} {entries : List (Entry State)}
    {w w' : Walk State Memory} (hd : Descends h c g path entries w w') :
    w'.trace.entry = w.trace.entry := by
  induction hd with
  | done => rfl
  | @back _ via _ _ _ _ _ _ _ ih =>
    rw [ih]
    cases via <;> rfl
  | seen _ _ _ ih => exact ih
  | cut _ _ _ _ ih => exact ih
  | missing _ _ _ _ _ ih => exact ih
  | expand _ _ _ _ _ _ ihbranches ihrest => exact ihrest.trans ihbranches

/-- What an exploration does from one node. -/
def traceFrom (c : ExecutionConfig) (g : Graph) (n : NodeId) : Trace Bag :=
  (run Hooks.pass c g (some n) ∅ ()).1

/-- A node of the graph is the entry of the execution from it. -/
theorem entry_traceFrom (hn : g.contains n = true) : (traceFrom c g n).entry = some n :=
  (run_descends (Graph.resolve_eq_some_iff.mpr ⟨rfl, hn⟩) Hooks.pass c ∅ ()).entry_eq

/-- Without budgets the nodes within reach are processed. -/
theorem mem_processed_traceFrom_iff (hdepth : c.maxDepth = none) (hstates : c.maxStates = none)
    (hn : g.contains n = true) {m : NodeId} :
    m ∈ (traceFrom c g n).processed ↔ ReflTransGen g.Leads n m := by
  have he : g.resolve (some n) = some n := Graph.resolve_eq_some_iff.mpr ⟨rfl, hn⟩
  rw [Trace.mem_processed]
  constructor
  · intro hm
    obtain ⟨e, he', hreach⟩ := reaches_of_mem_states_run hm
    obtain rfl := Option.some.inj (he.symm.trans he')
    exact hreach
  · exact mem_states_run_of_reaches hdepth hstates Hooks.neverPrune_pass he

/-- An execution does the same on a graph of the same shape, and there it writes its markers. -/
theorem execute_eq (hmark : c.markNodes = true) {g' : Graph} (hs : SameShape g g') :
    execute Hooks.pass c g' (some n) ∅ () = (traceFrom c g n,
      g'.setProperties (traceFrom c g n).processed c.markerKey c.markerValue, ()) := by
  rw [execute, run_congr hs sameTransfer_pass]
  simp only [writeMarkers, hmark, if_true]
  rfl

/-- **Executions do not read each other's markers**: each does what it does on the first graph, and
together they write on the nodes that one of them processed. By induction over the nodes to start
from; every execution keeps the shape of the graph. -/
theorem executeEach_eq (hmark : c.markNodes = true) (ns : List NodeId) {g' : Graph}
    (hs : SameShape g g') : executeEach c g' ns = (ns.map (traceFrom c g),
      g'.setProperties (ns.flatMap fun n => (traceFrom c g n).processed) c.markerKey
        c.markerValue) := by
  induction ns generalizing g' with
  | nil => rfl
  | cons n ns ih =>
    rw [executeEach, execute_eq hmark hs]
    dsimp only
    rw [ih (hs.trans (Graph.sameShape_setProperties g' _ _ _)), ← Graph.setProperties_append]
    rfl

/-- **An exploration covers what its roots reach.** Without budgets and with markers on, on every
graph: there is one execution for each root, in the order of the nodes; each processes the nodes
within reach of its root; and the marker is written on the nodes within reach of some root, and on
no other. In a graph without cycles, whose lists of predecessors agree with those of successors, it
is written on every node. -/
theorem explore_covers (c : ExecutionConfig) (g : Graph) (hdepth : c.maxDepth = none)
    (hstates : c.maxStates = none) (hmark : c.markNodes = true) :
    (∀ n, n ∈ roots g ↔ g.IsRoot n) ∧ (roots g).Pairwise (fun m n => m.index < n.index) ∧
    (explore c g).1.map Trace.entry = (roots g).map some ∧
    (∀ t ∈ (explore c g).1, ∀ n, n ∈ t.processed ↔
      ∃ r, t.entry = some r ∧ ReflTransGen g.Leads r n) ∧
    g.WrittenOn (explore c g).2 c.markerKey c.markerValue
      (fun n => ∃ r, g.IsRoot r ∧ ReflTransGen g.Leads r n) ∧
    (g.Consistent .forward → (∀ n, ¬ TransGen g.Leads n n) →
      g.WrittenOn (explore c g).2 c.markerKey c.markerValue (fun n => g.contains n = true)) := by
  have hcontains : ∀ r ∈ roots g, g.contains r = true := fun r hr => (mem_roots_iff.mp hr).1
  have hmarked : ∀ n, (n ∈ (roots g).flatMap fun r => (traceFrom c g r).processed) ↔
      ∃ r, g.IsRoot r ∧ ReflTransGen g.Leads r n := by
    intro n
    rw [List.mem_flatMap]
    refine exists_congr fun r => ?_
    rw [mem_roots_iff]
    exact and_congr_right fun hr => mem_processed_traceFrom_iff hdepth hstates hr.1
  rw [explore, executeEach_eq hmark (roots g) (SameShape.refl g)]
  refine ⟨fun n => mem_roots_iff, pairwise_roots, ?_, ?_,
    Graph.writtenOn_setProperties hmarked _ _, fun hg hacyclic => ?_⟩
  · rw [List.map_map]
    exact List.map_congr_left fun r hr => entry_traceFrom (hcontains r hr)
  · intro t ht n
    obtain ⟨r, hr, rfl⟩ := List.mem_map.mp ht
    rw [entry_traceFrom (hcontains r hr), mem_processed_traceFrom_iff hdepth hstates
      (hcontains r hr)]
    simp
  · refine Graph.writtenOn_setProperties (fun n => (hmarked n).trans ?_) _ _
    constructor
    · rintro ⟨r, hr, hreach⟩
      exact Graph.contains_of_reaches hr.1 hreach
    · exact Graph.exists_isRoot_reaches hg hacyclic

/-- Two chains with a bridge from the start of the first to the end of the second. The execution
from the first root also processes the end of the second chain, on which the other one then writes
its marker again; in the end every node has the marker. -/
theorem explore_covers_chains :
    let c : ExecutionConfig := {}
    let chains := Graph.addShape (Graph.addShape ∅ .chain 2 "a") .chain 2 "b"
    let g := (chains.connect "bridge" ⟨0⟩ ⟨3⟩).2
    c.maxDepth = none ∧ c.maxStates = none ∧ c.markNodes = true ∧ g.Consistent .forward ∧
      (∀ n, ¬ TransGen g.Leads n n) ∧ roots g = [⟨0⟩, ⟨2⟩] ∧
      (explore c g).1.map Trace.entry = (roots g).map some ∧
      (explore c g).1.map Trace.processed = [[⟨0⟩, ⟨1⟩, ⟨3⟩], [⟨2⟩, ⟨3⟩]] ∧
      g.WrittenOn (explore c g).2 c.markerKey c.markerValue (fun n => g.contains n = true) := by
  intro c chains g
  have hg : g.Consistent .forward := by decide +kernel
  have hup : ∀ m n, g.Leads m n → m.index < n.index := by
    have hall : ∀ m ∈ g.nodeIds, ∀ n ∈ g.successors m, m.index < n.index := by decide +kernel
    intro m n hleads
    exact hall m (Graph.mem_nodeIds.mpr (Graph.contains_of_adjacent_mem (d := .forward) hleads)) n
      hleads
  have hacyclic : ∀ n, ¬ TransGen g.Leads n n := by
    intro n hcycle
    have hlt : TransGen (· < ·) n.index n.index := hcycle.lift NodeId.index hup
    rw [Relation.transGen_eq_self] at hlt
    exact lt_irrefl n.index hlt
  obtain ⟨-, -, hentries, -, -, hwritten⟩ := explore_covers c g rfl rfl rfl
  exact ⟨rfl, rfl, rfl, hg, hacyclic, by decide +kernel, hentries, by decide +kernel,
    hwritten hg hacyclic⟩

end Execution

end ProgramGraph
