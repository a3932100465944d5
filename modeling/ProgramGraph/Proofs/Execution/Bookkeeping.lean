import Mathlib.Algebra.BigOperators.Group.Finset.Piecewise
import Mathlib.Algebra.Order.Ring.Nat
import Mathlib.Data.List.ProdSigma
import ProgramGraph.Proofs.Execution.BackEdges
import ProgramGraph.Proofs.Execution.StateBudget

/-!
# The books of an execution

A trace keeps the same facts in several places: the states of each node, the order of processing,
and counts of finished paths and of pruned branches. They are written at different points of the
search, which may leave a node early; here they are shown to agree, whatever the hooks do and
whatever the budgets are.

All counts are totals over the processed pairs of node and state (`Trace.total`), to which recording
a pair adds its own part (`Trace.total_record`). What recording, going back and stopping keep, the
whole search keeps (`Descends.keeps`).
-/

namespace ProgramGraph.Execution

open Relation (ReflTransGen)

universe u v

variable {State : Type u} {Memory : Type v}

/-! ### Totals -/

namespace Trace

variable {t : Trace State} {n : NodeId} {s : State} {f : NodeId → State → Nat}

/-- The sum of a number for each processed pair. -/
def total (f : NodeId → State → Nat) (t : Trace State) : Nat :=
  ∑ n ∈ t.processed.toFinset, ((t.statesAt n).map (f n)).sum

theorem toFinset_processed_record :
    (t.record n s).processed.toFinset = insert n t.processed.toFinset := by
  ext m
  rw [Finset.mem_insert, List.mem_toFinset, List.mem_toFinset, mem_processed, mem_processed,
    mem_states_record, or_comm]

/-- A node that was not processed has no states. -/
theorem statesAt_eq_nil (hn : n ∉ t.states) : t.statesAt n = [] :=
  Std.ExtTreeMap.getD_eq_fallback hn

/-- **Recording a pair adds its part to a total.** -/
theorem total_record (f : NodeId → State → Nat) (t : Trace State) (n : NodeId) (s : State) :
    (t.record n s).total f = t.total f + f n s := by
  have hparts : ∀ m, (((t.record n s).statesAt m).map (f m)).sum =
      ((t.statesAt m).map (f m)).sum + if n = m then f n s else 0 := by
    intro m
    rw [statesAt_record]
    by_cases hm : m = n
    · simp [hm]
    · simp [hm, Ne.symm hm]
  -- a node that is recorded for the first time had no states before
  have hnew : n ∉ t.processed.toFinset → ((t.statesAt n).map (f n)).sum = 0 := by
    intro hn
    rw [List.mem_toFinset, mem_processed] at hn
    rw [statesAt_eq_nil hn, List.map_nil, List.sum_nil]
  simp only [total, hparts, toFinset_processed_record]
  rw [Finset.sum_add_distrib, Finset.sum_insert_of_eq_zero_if_notMem hnew, Finset.sum_ite_eq,
    if_pos (Finset.mem_insert_self _ _)]

/-- Back edges count for no total. -/
theorem total_recordBackEdge (via : Option EdgeId) :
    (t.recordBackEdge via).total f = t.total f := by
  cases via <;> rfl

end Trace

/-! ### What the search keeps -/

/-- **What every part of the search keeps, the search keeps**: going back to a node of the path,
stopping at a budget, and processing a node with a state that is new to it. -/
theorem Descends.keeps [DecidableEq State] {h : Hooks State Memory} {c : ExecutionConfig}
    {g : Graph} {path : NodeSet} {entries : List (Entry State)} {w w' : Walk State Memory}
    {P : Trace State → Prop} (hd : Descends h c g path entries w w')
    (hback : ∀ t via, P t → P (t.recordBackEdge via))
    (hcut : ∀ t, P t → P { t with truncated := true })
    (hprocess : ∀ w n node s, g.node? n = some node → s ∉ w.trace.statesAt n → P w.trace →
      P (process h g n node s w).2.trace) (hw : P w.trace) : P w'.trace := by
  induction hd with
  | done => exact hw
  | back _ _ ih => exact ih (hback _ _ hw)
  | seen _ _ _ ih => exact ih hw
  | cut _ _ _ _ ih => exact ih (hcut _ hw)
  | missing _ _ _ _ _ ih => exact ih hw
  | expand _ hs _ hnode _ _ ihbranches ihrest =>
    exact ihrest (ihbranches (hprocess _ _ _ _ hnode hs hw))

section Process

variable {h : Hooks State Memory} {g : Graph} {n : NodeId} {node : Node} {s : State}
  {w : Walk State Memory}

/-- Processing a node with a state adds the part of this pair. -/
theorem total_process (f : NodeId → State → Nat) :
    (process h g n node s w).2.trace.total f = w.trace.total f + f n s :=
  w.trace.total_record f n s

/-- A state that is new to a node is not recorded twice. -/
theorem nodup_statesAt_process (hs : s ∉ w.trace.statesAt n)
    (hw : ∀ m, (w.trace.statesAt m).Nodup) (m : NodeId) :
    ((process h g n node s w).2.trace.statesAt m).Nodup := by
  rw [statesAt_process, Trace.statesAt_record]
  split
  · rw [← List.concat_eq_append]
    exact List.Nodup.concat hs (hw n)
  · exact hw m

/-- A node without present targets ends a path. -/
def endsPath (g : Graph) (n : NodeId) : Nat :=
  if g.outgoing n = [] then 1 else 0

/-- Processing a node completes a path if nothing is behind the node. -/
theorem completedPaths_process : (process h g n node s w).2.trace.completedPaths =
    w.trace.completedPaths + endsPath g n := by
  simp only [process, Trace.record, endsPath, List.isEmpty_iff]
  split <;> rfl

end Process

/-! ### Pure hooks -/

/-- The hooks answer as the two functions do, whatever their memory holds. -/
structure Hooks.Follow (h : Hooks State Memory) (transfer : Node → State → State)
    (fork : Edge → State → Option State) : Prop where
  transfer_eq : ∀ node s m, (h.transfer node s m).1 = transfer node s
  fork_eq : ∀ edge s m, (h.fork edge s m).1 = fork edge s

/-- Hooks that are made of two functions answer as they do. -/
theorem Hooks.follow_pure (transfer : Node → State → State) (fork : Edge → State → Option State) :
    (Hooks.pure transfer fork).Follow transfer fork :=
  ⟨fun _ _ _ => rfl, fun _ _ _ => rfl⟩

/-- No state goes on along the edge, from a node that was entered with the state. -/
def isPruned (transfer : Node → State → State) (fork : Edge → State → Option State) (g : Graph)
    (n : NodeId) (s : State) (e : EdgeId) : Bool :=
  (g.node? n).any fun node => (g.edge? e).any fun edge => (fork edge (transfer node s)).isNone

section Pure

variable {h : Hooks State Memory} {transfer : Node → State → State}
  {fork : Edge → State → Option State} {g : Graph}

/-- An edge is pruned if the function for edges lets no state through. -/
theorem pruned_forkAll (hh : h.Follow transfer fork) (s : State) (out : List (EdgeId × NodeId))
    (m : Memory) : (forkAll h g s out m).2.1 =
      out.countP fun entry => (g.edge? entry.1).any fun edge => (fork edge s).isNone := by
  induction out generalizing m with
  | nil => rfl
  | cons entry out ih =>
    obtain ⟨e, t⟩ := entry
    rw [forkAll, List.countP_cons]
    cases hedge : g.edge? e with
    | none => simp [ih]
    | some edge =>
      have hfork := hh.fork_eq edge s m
      rcases hboth : h.fork edge s m with ⟨_ | s', m'⟩
      · rw [hboth] at hfork
        simp [hboth, ih, ← hfork]
      · rw [hboth] at hfork
        simp [hboth, ih, ← hfork]

/-- Processing a node prunes those of its edges that let no state through. -/
theorem pruned_process (hh : h.Follow transfer fork) {n : NodeId} {node : Node}
    (hnode : g.node? n = some node) (s : State) (w : Walk State Memory) :
    (process h g n node s w).2.trace.pruned = w.trace.pruned +
      (g.outgoing n).countP fun entry => isPruned transfer fork g n s entry.1 := by
  have hcount := pruned_forkAll (g := g) hh (transfer node s) (g.outgoing n)
    (h.transfer node s w.memory).2
  rw [← hh.transfer_eq node s w.memory] at hcount
  simp only [isPruned, hnode, Option.any_some, ← hh.transfer_eq node s w.memory]
  exact congrArg (w.trace.pruned + ·) hcount

end Pure

/-! ### Whole executions -/

section Run

variable [DecidableEq State] {h : Hooks State Memory} {c : ExecutionConfig} {g : Graph}
  {start : Option NodeId} {s : State} {m : Memory}

/-- What an execution starts with and each part of its search keeps, holds of its trace. -/
theorem run_keeps {P : Trace State → Prop} (hstart : ∀ entry, P { entry })
    (hback : ∀ t via, P t → P (t.recordBackEdge via))
    (hcut : ∀ t, P t → P { t with truncated := true })
    (hprocess : ∀ w n node s, g.node? n = some node → s ∉ w.trace.statesAt n → P w.trace →
      P (process h g n node s w).2.trace) : P (run h c g start s m).1 := by
  cases he : g.resolve start with
  | none =>
    rw [run, he]
    exact hstart none
  | some e => exact (run_descends he h c s m).keeps hback hcut hprocess (hstart (some e))

/-- No node is processed twice with one state. -/
theorem nodup_statesAt_run (n : NodeId) : ((run h c g start s m).1.statesAt n).Nodup := by
  refine run_keeps (P := fun t => ∀ n, (t.statesAt n).Nodup) ?_ ?_ ?_ ?_ n
  · exact fun _ _ => List.nodup_nil
  · intro t via ht n
    rw [Trace.statesAt_recordBackEdge]
    exact ht n
  · exact fun _ ht => ht
  · exact fun _ _ _ _ _ hs hw => nodup_statesAt_process hs hw

/-- An execution records a state for every time that it processes a node. -/
theorem tallied_run : (run h c g start s m).1.Tallied := by
  cases he : g.resolve start with
  | none =>
    rw [run, he]
    exact fun _ => rfl
  | some e => exact (run_descends he h c s m).tallied fun _ => rfl

/-- Finished paths are counted once for each pair whose node has no present target. -/
theorem completedPaths_run : (run h c g start s m).1.completedPaths =
    (run h c g start s m).1.total fun n _ => endsPath g n := by
  refine run_keeps (P := fun t => t.completedPaths = t.total fun n _ => endsPath g n) ?_ ?_ ?_ ?_
  · exact fun _ => rfl
  · intro t via ht
    rw [Trace.total_recordBackEdge, ← ht]
    cases via <;> rfl
  · exact fun _ ht => ht
  · intro w n node s _ _ hw
    rw [completedPaths_process, total_process, hw]

/-- Pruned branches are counted once for each pair and each edge that is pruned there. -/
theorem pruned_run {transfer : Node → State → State} {fork : Edge → State → Option State}
    (hh : h.Follow transfer fork) : (run h c g start s m).1.pruned =
      (run h c g start s m).1.total fun n s =>
        (g.outgoing n).countP fun entry => isPruned transfer fork g n s entry.1 := by
  refine run_keeps (P := fun t => t.pruned = t.total fun n s =>
    (g.outgoing n).countP fun entry => isPruned transfer fork g n s entry.1) ?_ ?_ ?_ ?_
  · exact fun _ => rfl
  · intro t via ht
    rw [Trace.total_recordBackEdge, ← ht]
    cases via <;> rfl
  · exact fun _ ht => ht
  · intro w n node s hnode _ hw
    rw [pruned_process hh hnode, total_process, hw]

/-- The target of a back edge can be reached from the entry. -/
theorem reaches_target_of_mem_backEdges {b : EdgeId}
    (hb : b ∈ (run h c g start s m).1.backEdges) :
    ∃ e v, g.resolve start = some e ∧ g.target? b = some v ∧ ReflTransGen g.Leads e v := by
  cases he : g.resolve start with
  | none =>
    rw [run, he] at hb
    exact absurd hb (Array.not_mem_empty b)
  | some e =>
    have hcloses := (run_descends he h c s m).closesCycle (e := e)
      (List.forall_mem_singleton.mpr .start) hb
    obtain ⟨u, v, hreach, hout, -⟩ := hcloses.resolve_left (by simp)
    refine ⟨e, v, rfl, ?_, hreach.tail (Graph.leads_iff.mpr ⟨b, hout⟩)⟩
    obtain ⟨b', -, hmap⟩ := List.mem_filterMap.mp hout
    obtain ⟨v', hv, heq⟩ := Option.map_eq_some_iff.mp hmap
    obtain ⟨rfl, rfl⟩ := Prod.mk.inj heq
    exact hv

/-- Pairs are counted one first part after the other. -/
theorem countP_product {α β : Type*} (p : α × β → Bool) (as : List α) (bs : List β) :
    (as ×ˢ bs).countP p = (as.map fun a => bs.countP fun b => p (a, b)).sum := by
  refine List.countP_flatMap.trans (congrArg (fun f => (as.map f).sum) (funext fun a => ?_))
  exact List.countP_map

/-- **The books of an execution agree**, on every graph, from every entry, with any hooks and under
any budgets. No node is entered twice with one state; it stands in the order as often as it was
processed. Processed nodes and the targets of back edges can be reached from the entry. Each time
that a node without present targets is processed counts as a finished path. And if the answers of
the hooks do not depend on what they remember, the number of pruned branches is the number of pairs,
of a state that a node was entered with and an edge of the node, for which no state goes on. -/
theorem run_bookkeeping (h : Hooks State Memory) (c : ExecutionConfig) (g : Graph)
    (start : Option NodeId) (s : State) (m : Memory) :
    let t := (run h c g start s m).1
    (∀ n, (t.statesAt n).Nodup) ∧ (∀ n, t.order.count n = t.timesProcessed n) ∧
    (∀ n ∈ t.processed, ∃ e, g.resolve start = some e ∧ ReflTransGen g.Leads e n) ∧
    (∀ b ∈ t.backEdges, ∃ e v, g.resolve start = some e ∧ g.target? b = some v ∧
      ReflTransGen g.Leads e v) ∧
    (t.completedPaths = ∑ n ∈ t.processed.toFinset with g.outgoing n = [], t.timesProcessed n) ∧
    ∀ transfer fork, h.Follow transfer fork →
      t.pruned = ∑ n ∈ t.processed.toFinset, (t.statesAt n ×ˢ g.outgoing n).countP fun pair =>
        isPruned transfer fork g n pair.1 pair.2.1 := by
  intro t
  refine ⟨nodup_statesAt_run, fun n => ?_, fun n hn => ?_, fun b => reaches_target_of_mem_backEdges,
    ?_, fun transfer fork hh => ?_⟩
  · rw [← Array.count_toList]
    exact (tallied_run n).symm
  · exact reaches_of_mem_states_run (Trace.mem_processed.mp hn)
  · refine completedPaths_run.trans ?_
    rw [Finset.sum_filter]
    refine Finset.sum_congr rfl fun n _ => ?_
    simp [endsPath, Trace.timesProcessed, t]
  · refine (pruned_run hh).trans (Finset.sum_congr rfl fun n _ => ?_)
    rw [countP_product]

end Run

/-- Counts the nodes of the path, and lets no state go on from the third one. -/
def threeDeep : Hooks Nat Unit :=
  Hooks.pure (fun _ s => s + 1) fun _ s => if s < 3 then some s else none

/-- In the complete graph on three nodes, with a node behind two of them: that one is entered with
two states and ends two paths. The second and the third node come third on one path each, where
their four and three edges are pruned. -/
theorem run_bookkeeping_leaf :
    let g := (((Graph.addShape ∅ .complete 3 "n").addNode "leaf").2.connect "a" ⟨0⟩ ⟨3⟩).2
    let g := (g.connect "b" ⟨1⟩ ⟨3⟩).2
    let t := (run threeDeep {} g (some ⟨0⟩) 0 ()).1
    threeDeep.Follow (fun _ s => s + 1) (fun _ s => if s < 3 then some s else none) ∧
      t.statesAt ⟨3⟩ = [2, 1] ∧ t.completedPaths = 2 ∧ t.pruned = 7 ∧
      (∑ n ∈ t.processed.toFinset with g.outgoing n = [], t.timesProcessed n) = 2 ∧
      (∑ n ∈ t.processed.toFinset, (t.statesAt n ×ˢ g.outgoing n).countP fun pair =>
        isPruned (fun _ s => s + 1) (fun _ s => if s < 3 then some s else none) g n pair.1
          pair.2.1) = 7 := by
  intro _ g t
  have hfollow := Hooks.follow_pure (fun _ s => s + 1)
    (fun (_ : Edge) (s : Nat) => if s < 3 then some s else none)
  have hcompleted : t.completedPaths = 2 := by decide +kernel
  have hpruned : t.pruned = 7 := by decide +kernel
  obtain ⟨-, -, -, -, hpaths, hpairs⟩ := run_bookkeeping threeDeep {} g (some ⟨0⟩) 0 ()
  exact ⟨hfollow, by decide +kernel, hcompleted, hpruned, hpaths.symm.trans hcompleted,
    (hpairs _ _ hfollow).symm.trans hpruned⟩

end ProgramGraph.Execution
