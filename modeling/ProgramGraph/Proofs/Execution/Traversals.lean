import ProgramGraph.Proofs.Execution.Coverage
import ProgramGraph.Proofs.Execution.FeasibleWalk
import ProgramGraph.Proofs.Graph.DepthFirst
import ProgramGraph.Proofs.Slice.Exactness

/-!
# Three traversals

An execution without hooks and budgets carries one state everywhere, so it processes a node once,
when it comes there first. A node that it meets again is on its path or was processed with that
state before; both ways it was visited, and is passed over. The nodes are therefore processed in
depth-first order (`Descends.depthFirst`).

`traversals_agree`: that order is the list of reachable nodes, and its members are those of the
forward slice, although the first is found with a stack of nodes, the second with a path and a
table of states, and the third with a queue.
-/

namespace ProgramGraph.Execution

open ProgramGraph.Graph (DepthFirst)

universe u

variable {State : Type u} {c : ExecutionConfig} {g : Graph} {n : NodeId} {node : Node} {s : State}

/-! ### Branches without hooks -/

/-- Without hooks every branch carries the state of its node. -/
theorem state_of_mem_branches_pass {w : Walk State Unit} {b : Branch State}
    (hb : b ∈ (process Hooks.pass g n node s w).1) : b.state = s := by
  rw [branches_process] at hb
  obtain ⟨-, edge, -, hfork⟩ := mem_forkAll_iff.mp hb
  exact (Option.some.inj hfork).symm

/-- Without hooks the targets of a node are entered in the order of its list. -/
theorem map_node_branches_pass {w : Walk State Unit} :
    ((process Hooks.pass g n node s w).1.map Branch.entry).map Entry.node = g.successors n := by
  rw [Graph.successors, ← map_branches_eq s node w Hooks.neverPrune_pass, List.map_map,
    List.map_map]
  rfl

/-! ### The order of processing -/

/-- Only one state is about: the nodes that are to be entered are entered with it, the processed
nodes are those that were entered with it, and the nodes on the path are processed. -/
structure OneState (g : Graph) (s : State) (path : NodeSet) (entries : List (Entry State))
    (t : Trace State) : Prop where
  state_eq : ∀ entry ∈ entries, entry.state = s
  contains : ∀ entry ∈ entries, g.contains entry.node = true
  mem_statesAt_iff : ∀ n, s ∈ t.statesAt n ↔ n ∈ t.order.toList
  path_subset : ∀ n ∈ path, n ∈ t.order.toList

namespace OneState

variable {path : NodeSet} {entry : Entry State} {entries : List (Entry State)} {t t' : Trace State}

/-- The first node is dealt with, and what was processed still is. -/
theorem tail (h : OneState g s path (entry :: entries) t)
    (hstates : ∀ n, s ∈ t'.statesAt n ↔ n ∈ t'.order.toList)
    (horder : t.order.toList ⊆ t'.order.toList) : OneState g s path entries t' where
  state_eq _ hentry := h.state_eq _ (List.mem_cons_of_mem entry hentry)
  contains _ hentry := h.contains _ (List.mem_cons_of_mem entry hentry)
  mem_statesAt_iff := hstates
  path_subset n hn := horder (h.path_subset n hn)

/-- The branches of a node are entered after it is processed. -/
theorem process {via : Option EdgeId} {w : Walk State Unit}
    (h : OneState g s path (⟨via, n, s⟩ :: entries) w.trace) :
    OneState g s (path.insert n)
      ((Execution.process Hooks.pass g n node s w).1.map Branch.entry)
      (Execution.process Hooks.pass g n node s w).2.trace := by
  refine ⟨fun entry hentry => ?_, fun entry hentry => ?_, fun m => ?_, fun m hm => ?_⟩
  · obtain ⟨b, hb, rfl⟩ := List.mem_map.mp hentry
    exact state_of_mem_branches_pass hb
  · obtain ⟨b, hb, rfl⟩ := List.mem_map.mp hentry
    exact Graph.contains_of_mem_adjacent (d := .forward) (leads_of_mem_branches hb)
  · rw [statesAt_process, Trace.mem_statesAt_record, h.mem_statesAt_iff, order_process,
      List.mem_append, List.mem_singleton, and_iff_left rfl]
  · rw [order_process, List.mem_append, List.mem_singleton]
    rcases mem_insert_path.mp hm with rfl | hm
    · exact Or.inr rfl
    · exact Or.inl (h.path_subset m hm)

end OneState

variable [DecidableEq State]

/-- **Without hooks and budgets nodes are processed in depth-first order.** -/
theorem Descends.depthFirst {path : NodeSet} {entries : List (Entry State)}
    {w w' : Walk State Unit} (hd : Descends Hooks.pass c g path entries w w')
    (hdepth : c.maxDepth = none) (hstates : c.maxStates = none)
    (h : OneState g s path entries w.trace) :
    DepthFirst g w.trace.order.toList (entries.map Entry.node) w'.trace.order.toList ∧
      ∀ n, s ∈ w'.trace.statesAt n ↔ n ∈ w'.trace.order.toList := by
  induction hd with
  | done => exact ⟨.done, h.mem_statesAt_iff⟩
  | @back path via n s' rest w w' hn _ ih =>
    rw [Trace.order_recordBackEdge] at ih
    obtain ⟨hrest, hlast⟩ := ih (h.tail
      (fun m => by
        rw [Trace.statesAt_recordBackEdge, Trace.order_recordBackEdge, h.mem_statesAt_iff])
      (by rw [Trace.order_recordBackEdge]; exact fun _ hm => hm))
    exact ⟨.skip (h.path_subset n hn) hrest, hlast⟩
  | @seen path via n s' rest w w' _ hs _ ih =>
    obtain rfl : s' = s := h.state_eq _ List.mem_cons_self
    obtain ⟨hrest, hlast⟩ := ih (h.tail h.mem_statesAt_iff fun _ hm => hm)
    exact ⟨.skip ((h.mem_statesAt_iff n).mp hs) hrest, hlast⟩
  | cut _ _ hbudget => simp [overBudget, hdepth, hstates] at hbudget
  | missing _ _ _ hnode =>
    exact absurd (h.contains _ List.mem_cons_self) (Graph.not_contains_of_node? hnode)
  | @expand path via n s' rest w w' w'' node _ hs _ _ _ _ ihbranches ihrest =>
    obtain rfl : s' = s := h.state_eq _ List.mem_cons_self
    obtain ⟨htargets, hstates'⟩ := ihbranches h.process
    rw [map_node_branches_pass, order_process] at htargets
    obtain ⟨hrest, hlast⟩ := ihrest (h.tail hstates' fun m hm =>
      htargets.subset (List.mem_append_left _ hm))
    exact ⟨.visit (fun hn => hs ((h.mem_statesAt_iff n).mpr hn)) htargets hrest, hlast⟩

/-- An execution that hands its state on, without budgets, enters the nodes depth first. -/
theorem depthFirst_run {start : Option NodeId} {e : NodeId} (hdepth : c.maxDepth = none)
    (hstates : c.maxStates = none) (he : g.resolve start = some e) (s : State) :
    DepthFirst g [] [e] (run Hooks.pass c g start s ()).1.order.toList := by
  refine ((run_descends he Hooks.pass c s ()).depthFirst hdepth hstates (s := s) ?_).1
  refine ⟨fun entry hentry => ?_, fun entry hentry => ?_, fun n => ?_, fun n hn => ?_⟩
  · rw [List.mem_singleton.mp hentry]
  · rw [List.mem_singleton.mp hentry]
    exact (Graph.resolve_eq_some_iff.mp he).2
  · simp [Trace.statesAt]
  · exact absurd hn Std.ExtTreeSet.not_mem_empty

/-- **Three traversals agree**, on every graph and from every entry that resolves. The nodes that an
execution without hooks and budgets processes, in this order, are the list of reachable nodes; that
is the depth-first order and no other, no node stands in it twice, and its members are those of the
forward slice. -/
theorem traversals_agree (c : ExecutionConfig) (g : Graph) (start : Option NodeId) (e : NodeId)
    (s : State) (hdepth : c.maxDepth = none) (hstates : c.maxStates = none)
    (he : g.resolve start = some e) :
    (execute Hooks.pass c g start s ()).1.order.toList = g.reachableFrom start ∧
      (∀ order, DepthFirst g [] [e] order ↔ order = g.reachableFrom start) ∧
      (g.reachableFrom start).Nodup ∧
      ∀ n, n ∈ g.reachableFrom start ↔ n ∈ (Slice.forward {} g start).nodes := by
  have hlist := Graph.depthFirst_reachableFrom he
  refine ⟨(depthFirst_run hdepth hstates he s).unique hlist, fun order => ?_,
    hlist.nodup List.nodup_nil, fun n => ?_⟩
  · constructor
    · exact fun horder => horder.unique hlist
    · rintro rfl
      exact hlist
  · obtain ⟨rfl, hcontains⟩ := Graph.resolve_eq_some_iff.mp he
    rw [hlist.mem_iff_reaches, Slice.mem_nodes_forward_iff_leads hcontains rfl rfl]

/-- Three nodes whose lists are not in the order of their handles, with a cycle, a self loop and two
edges from the first node to the last. -/
theorem traversals_agree_loops :
    let c : ExecutionConfig := {}
    let g := [(0, 2), (0, 1), (0, 2), (2, 1), (1, 1), (1, 0)].foldl
      (fun g (m, n) => (g.connect s!"e{g.edgeCount}" ⟨m⟩ ⟨n⟩).2)
      (["A", "B", "C"].foldl (fun g id => (g.addNode id).2) ∅)
    c.maxDepth = none ∧ c.maxStates = none ∧ g.resolve (some ⟨0⟩) = some ⟨0⟩ ∧
      (execute Hooks.pass c g (some ⟨0⟩) (∅ : Bag) ()).1.order.toList = [⟨0⟩, ⟨2⟩, ⟨1⟩] ∧
      DepthFirst g [] [⟨0⟩] [⟨0⟩, ⟨2⟩, ⟨1⟩] ∧ ⟨1⟩ ∈ (Slice.forward {} g (some ⟨0⟩)).nodes := by
  intro c g
  have hlist : g.reachableFrom (some ⟨0⟩) = [⟨0⟩, ⟨2⟩, ⟨1⟩] := by decide +kernel
  obtain ⟨horder, hdepthFirst, -, hslice⟩ :=
    traversals_agree c g (some ⟨0⟩) ⟨0⟩ (∅ : Bag) rfl rfl (by decide)
  rw [hlist] at horder hdepthFirst hslice
  exact ⟨rfl, rfl, by decide, horder, (hdepthFirst _).mpr rfl, (hslice ⟨1⟩).mp (by decide)⟩

end ProgramGraph.Execution
