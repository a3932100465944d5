import ProgramGraph.Proofs.Execution.DepthBound

/-!
# What a bound on the processed pairs cuts off

A bound on the number of processed pairs stops a search without changing what it did before: an
execution with a bound of `k` processes the first `k` pairs that the execution without it processes.
That is not plain from the search, which does not stop there. It goes on through what it still has
to enter, records back edges and passes over pairs it knows, and only cuts off what it would
otherwise process; and the hooks, which can have a memory, are not asked again.

* `Descends.unique`: from one walk the search ends in only one way, so that runs under two
  configurations can be compared by their derivations.
* `Descends.cutTo`: what is derived without a bound is derived with it, up to the bound.
* `Descends.unbounded`: what is derived without cutting anything off is derived without bounds.
* `run_within`: the same for whole executions.
-/

namespace ProgramGraph

/-- The configuration with other bounds on the depth and on the number of processed pairs. -/
def ExecutionConfig.within (c : ExecutionConfig) (depth states : Option UInt64) :
    ExecutionConfig :=
  { c with maxDepth := depth, maxStates := states }

namespace Execution

universe u v

variable {State : Type u} {Memory : Type v}

/-! ### How a trace grows -/

namespace Trace

/-- The second trace begins with what the first one processed. -/
structure Begins (t t' : Trace State) : Prop where
  order : t.order.toList <+: t'.order.toList
  statesAt : ∀ n, t.statesAt n <+: t'.statesAt n

/-- A node has one state for every time that it was processed. -/
def Tallied (t : Trace State) : Prop :=
  ∀ n, (t.statesAt n).length = t.order.toList.count n

variable {t t' t'' : Trace State}

theorem stateCount_recordBackEdge (via : Option EdgeId) :
    (t.recordBackEdge via).stateCount = t.stateCount := by
  cases via <;> rfl

theorem Begins.of_eq (horder : t.order = t'.order) (hstates : t.states = t'.states) :
    t.Begins t' where
  order := by simp only [horder, List.prefix_rfl]
  statesAt n := by simp only [Trace.statesAt, hstates, List.prefix_rfl]

protected theorem Begins.refl (t : Trace State) : t.Begins t :=
  .of_eq rfl rfl

protected theorem Begins.trans (h : t.Begins t') (h' : t'.Begins t'') : t.Begins t'' :=
  ⟨h.order.trans h'.order, fun n => (h.statesAt n).trans (h'.statesAt n)⟩

/-- The trace that begins the other has no more pairs. -/
theorem Begins.stateCount_le (h : t.Begins t') : t.stateCount ≤ t'.stateCount :=
  h.order.length_le

/-- The number of pairs says which part of the order the first trace has. -/
theorem Begins.order_eq (h : t.Begins t') : t.order.toList = t'.order.toList.take t.stateCount :=
  List.prefix_iff_eq_take.mp h.order

/-- A tallied trace has of each node the states of its first times. -/
theorem Begins.statesAt_eq (h : t.Begins t') (ht : t.Tallied) (n : NodeId) :
    t.statesAt n = (t'.statesAt n).take (t.order.toList.count n) := by
  rw [← ht n]
  exact List.prefix_iff_eq_take.mp (h.statesAt n)

end Trace

section Process

variable {h : Hooks State Memory} {g : Graph} {n : NodeId} {node : Node} {s : State}
  {w : Walk State Memory}

/-- Processing a node with a state adds one pair. -/
theorem stateCount_process :
    (process h g n node s w).2.trace.stateCount = w.trace.stateCount + 1 :=
  Array.size_push n

/-- What was processed before stays at the beginning. -/
theorem begins_process : w.trace.Begins (process h g n node s w).2.trace where
  order := by
    rw [order_process]
    exact List.prefix_append _ _
  statesAt m := by
    rw [statesAt_process, Trace.statesAt_record]
    split
    · rename_i heq
      rw [heq]
      exact List.prefix_append _ _
    · exact List.prefix_rfl

/-- Processing a node records one more state and one more time. -/
theorem tallied_process (ht : w.trace.Tallied) : (process h g n node s w).2.trace.Tallied := by
  intro m
  rw [statesAt_process, Trace.statesAt_record, order_process, List.count_append,
    List.count_singleton]
  split
  · rename_i heq
    rw [List.length_append, ht n, heq]
    simp
  · rename_i hne
    rw [ht m]
    simp [Ne.symm hne]

end Process

/-- A bound of `k` pairs makes the second walk of the first: the same, if there are no more pairs,
and else one that begins like it, has `k` pairs, and is cut off. -/
structure Walk.CutTo (k : Nat) (w v : Walk State Memory) : Prop where
  whole : w.trace.stateCount ≤ k → v = w
  begins : v.trace.Begins w.trace
  full : k < w.trace.stateCount → v.trace.stateCount = k ∧ v.trace.truncated = true

/-- A cut walk has as many pairs as it may. -/
theorem Walk.CutTo.stateCount {k : Nat} {w v : Walk State Memory} (hcut : w.CutTo k v) :
    v.trace.stateCount = min k w.trace.stateCount := by
  rcases Nat.lt_or_ge k w.trace.stateCount with hk | hk
  · rw [(hcut.full hk).1, Nat.min_eq_left hk.le]
  · rw [hcut.whole hk, Nat.min_eq_right hk]

section Descent

variable [DecidableEq State] {h : Hooks State Memory} {c c' : ExecutionConfig} {g : Graph}
  {path : NodeSet} {entries : List (Entry State)} {w w' v v' : Walk State Memory}

/-- The search only adds to what was processed. -/
theorem Descends.begins (hd : Descends h c g path entries w w') : w.trace.Begins w'.trace := by
  induction hd with
  | done => exact .refl _
  | @back _ via _ _ _ _ _ _ _ ih =>
    refine .trans (.of_eq ?_ ?_) ih
    · rw [Trace.order_recordBackEdge]
    · rw [Trace.states_recordBackEdge]
  | seen _ _ _ ih => exact ih
  | cut _ _ _ _ ih =>
    refine .trans ?_ ih
    exact .of_eq rfl rfl
  | missing _ _ _ _ _ ih => exact ih
  | expand _ _ _ _ _ _ ihbranches ihrest => exact (begins_process.trans ihbranches).trans ihrest

/-- The search keeps a trace tallied. -/
theorem Descends.tallied (hd : Descends h c g path entries w w') (ht : w.trace.Tallied) :
    w'.trace.Tallied := by
  induction hd with
  | done => exact ht
  | back _ _ ih =>
    refine ih fun n => ?_
    rw [Trace.statesAt_recordBackEdge, Trace.order_recordBackEdge]
    exact ht n
  | seen _ _ _ ih => exact ih ht
  | cut _ _ _ _ ih => exact ih ht
  | missing _ _ _ _ _ ih => exact ih ht
  | expand _ _ _ _ _ _ ihbranches ihrest => exact ihrest (ihbranches (tallied_process ht))

/-! ### Derivations under two configurations -/

/-- **The search ends in one way.** The machine follows every derivation, and it has one step to
take at a time. -/
theorem Descends.unique (hv : Descends h c g path entries w v)
    (hv' : Descends h c g path entries w v') : v = v' := by
  have hstep : Relator.RightUnique (Machine.Steps h c g) :=
    fun _ _ _ ha hb => Option.some.inj (ha.symm.trans hb)
  have hstops : ∀ {v v' : Walk State Memory},
      Relation.ReflTransGen (Machine.Steps h c g) ⟨[], path, v⟩ ⟨[], path, v'⟩ → v = v' := by
    intro v v' hsteps
    rcases hsteps.cases_head with heq | ⟨M, hM, -⟩
    · exact (Machine.mk.inj heq).2.2
    · exact absurd hM (Option.some_ne_none M).symm
  rcases Relation.ReflTransGen.total_of_right_unique hstep (hv.steps []) (hv'.steps [])
    with hsteps | hsteps
  · exact hstops hsteps
  · exact (hstops hsteps).symm

/-- Without bounds no budget is ever used up. -/
theorem overBudget_eq_false (hdepth : c.maxDepth = none) (hstates : c.maxStates = none)
    {depth count : Nat} : overBudget c depth count = false := by
  simp [overBudget, hdepth, hstates]

/-- **What is derived without cutting anything off is derived without bounds.** -/
theorem Descends.unbounded (hd : Descends h c g path entries w w')
    (hdepth : c'.maxDepth = none) (hstates : c'.maxStates = none)
    (hwhole : w'.trace.truncated = false) : Descends h c' g path entries w w' := by
  have hwithin := @overBudget_eq_false c' hdepth hstates
  induction hd with
  | done => exact .done
  | back hn _ ih => exact .back hn (ih hwhole)
  | seen hn hs _ ih => exact .seen hn hs (ih hwhole)
  | cut _ _ _ hrest => exact absurd ((hrest.truncated rfl).symm.trans hwhole) Bool.noConfusion
  | missing hn hs _ hnode _ ih => exact .missing hn hs hwithin hnode (ih hwhole)
  | expand hn hs _ hnode _ hrest ihbranches ihrest =>
    have hbefore := Bool.eq_false_iff.mpr fun ht =>
      Bool.noConfusion ((hrest.truncated ht).symm.trans hwhole)
    exact .expand hn hs hwithin hnode (ihbranches hbefore) (ihrest hwhole)

section Bound

variable {states : UInt64} (hdepth : c'.maxDepth = none) (hstates : c'.maxStates = some states)

include hdepth hstates

/-- With a bound on the pairs alone, the search stops when that many were processed. -/
theorem overBudget_iff_le {depth count : Nat} :
    overBudget c' depth count = true ↔ states.toNat ≤ count := by
  simp [overBudget, hdepth, hstates]

/-- **At the bound nothing is processed any more**: what is still to be entered leads back, is known
or is cut off. -/
theorem exists_descends_of_le (path : NodeSet) (entries : List (Entry State))
    (hfull : states.toNat ≤ w.trace.stateCount) :
    ∃ v, Descends h c' g path entries w v ∧ v.trace.Begins w.trace ∧
      v.trace.stateCount = w.trace.stateCount ∧
      (w.trace.truncated = true → v.trace.truncated = true) := by
  induction entries generalizing w with
  | nil => exact ⟨w, .done, .refl _, rfl, id⟩
  | cons entry rest ih =>
    obtain ⟨via, n, s⟩ := entry
    by_cases hn : n ∈ path
    · obtain ⟨v, hv, hbegins, hcount, htruncated⟩ :=
        ih (w := { w with trace := w.trace.recordBackEdge via })
          (by rwa [Trace.stateCount_recordBackEdge])
      rw [Trace.stateCount_recordBackEdge] at hcount
      rw [Trace.truncated_recordBackEdge] at htruncated
      refine ⟨v, .back hn hv, hbegins.trans (.of_eq ?_ ?_), hcount, htruncated⟩
      · rw [Trace.order_recordBackEdge]
      · rw [Trace.states_recordBackEdge]
    by_cases hs : s ∈ w.trace.statesAt n
    · obtain ⟨v, hv, hat⟩ := ih hfull
      exact ⟨v, .seen hn hs hv, hat⟩
    · obtain ⟨v, hv, hbegins, hcount, htruncated⟩ :=
        ih (w := { w with trace := { w.trace with truncated := true } }) hfull
      exact ⟨v, .cut hn hs ((overBudget_iff_le hdepth hstates).mpr hfull) hv,
        hbegins.trans (.of_eq rfl rfl), hcount, fun _ => htruncated rfl⟩

/-- The search is at the bound and was cut off, and without it goes further. -/
theorem exists_descends_cutTo (path : NodeSet) (entries : List (Entry State))
    (hfull : v.trace.stateCount = states.toNat) (ht : v.trace.truncated = true)
    (hbegins : v.trace.Begins w.trace) (hmore : states.toNat < w.trace.stateCount) :
    ∃ v', Descends h c' g path entries v v' ∧ w.CutTo states.toNat v' := by
  obtain ⟨v', hv', hbegins', hcount, htruncated⟩ :=
    exists_descends_of_le (h := h) (g := g) hdepth hstates path entries hfull.ge
  refine ⟨v', hv', fun hle => absurd hle (Nat.not_le.mpr hmore), hbegins'.trans hbegins, ?_⟩
  exact fun _ => ⟨hcount.trans hfull, htruncated ht⟩

/-- **Up to the bound the search is the same.** By induction over the derivation without a bound: as
long as there is room for the pair that is processed next, the bounded search processes it too, and
from then on it stays at the bound. -/
theorem Descends.cutTo (hd : Descends h c g path entries w w') (hfree : c.maxDepth = none)
    (hfree' : c.maxStates = none) (hentries : ∀ entry ∈ entries, g.contains entry.node = true)
    (hw : w.trace.stateCount ≤ states.toNat) :
    ∃ v, Descends h c' g path entries w v ∧ w'.CutTo states.toNat v := by
  induction hd with
  | done => exact ⟨_, .done, fun _ => rfl, .refl _, fun hmore => absurd hw (Nat.not_le.mpr hmore)⟩
  | back hn _ ih =>
    obtain ⟨v, hv, hcut⟩ := ih (List.forall_mem_cons.mp hentries).2
      (by rwa [Trace.stateCount_recordBackEdge])
    exact ⟨v, .back hn hv, hcut⟩
  | seen hn hs _ ih =>
    obtain ⟨v, hv, hcut⟩ := ih (List.forall_mem_cons.mp hentries).2 hw
    exact ⟨v, .seen hn hs hv, hcut⟩
  | cut _ _ hbudget =>
    exact absurd (hbudget.symm.trans (overBudget_eq_false hfree hfree')) Bool.noConfusion
  | missing _ _ _ hnode =>
    exact absurd (List.forall_mem_cons.mp hentries).1 (Graph.not_contains_of_node? hnode)
  | @expand path via n s rest w w' w'' node hn hs _ hnode hbranches hrest ihbranches ihrest =>
    have hgrows := hbranches.begins.stateCount_le
    have hgrows' := hrest.begins.stateCount_le
    rw [stateCount_process] at hgrows
    rcases Nat.lt_or_ge w.trace.stateCount states.toNat with hroom | hfull
    · have hwithin : overBudget c' path.size w.trace.stateCount = false := by
        rw [← Bool.not_eq_true, overBudget_iff_le hdepth hstates]
        exact Nat.not_le.mpr hroom
      have htargets : ∀ entry ∈ (process h g n node s w).1.map Branch.entry,
          g.contains entry.node = true := by
        intro entry hentry
        obtain ⟨b, hb, rfl⟩ := List.mem_map.mp hentry
        exact Graph.contains_of_mem_adjacent (d := .forward) (leads_of_mem_branches hb)
      obtain ⟨v, hv, hcut⟩ := ihbranches htargets (by rw [stateCount_process]; exact hroom)
      rcases Nat.lt_or_ge states.toNat w'.trace.stateCount with hmore | hle
      · -- the bound was met among the branches
        obtain ⟨hcount, ht⟩ := hcut.full hmore
        obtain ⟨v', hv', hcut'⟩ := exists_descends_cutTo (h := h) (g := g) hdepth hstates path rest
          hcount ht (hcut.begins.trans hrest.begins) (hmore.trans_le hgrows')
        exact ⟨v', .expand hn hs hwithin hnode hv hv', hcut'⟩
      · obtain rfl := hcut.whole hle
        obtain ⟨v', hv', hcut'⟩ := ihrest (List.forall_mem_cons.mp hentries).2 hle
        exact ⟨v', .expand hn hs hwithin hnode hv hv', hcut'⟩
    · -- this node is the first that is cut off
      let v : Walk State Memory := { w with trace := { w.trace with truncated := true } }
      have hbegins : v.trace.Begins w.trace := .of_eq rfl rfl
      obtain ⟨v', hv', hcut'⟩ := exists_descends_cutTo (h := h) (g := g) hdepth hstates path rest
        (show v.trace.stateCount = states.toNat from Nat.le_antisymm hw hfull) rfl
        (((hbegins.trans begins_process).trans hbranches.begins).trans hrest.begins) (by omega)
      exact ⟨v', .cut hn hs ((overBudget_iff_le hdepth hstates).mpr hfull) hv', hcut'⟩

end Bound

end Descent

/-! ### Whole executions -/

section Run

variable [DecidableEq State] {h : Hooks State Memory} {c : ExecutionConfig} {g : Graph}
  {start : Option NodeId} {e : NodeId} {s : State} {m : Memory} {w : Walk State Memory}

/-- An execution is what is derived for it. -/
theorem run_eq_of_descends (he : g.resolve start = some e)
    (hd : Descends h c g ∅ [⟨none, e, s⟩] ⟨{ entry := some e }, m⟩ w) :
    run h c g start s m = (w.trace, w.memory) := by
  rw [← (run_descends he h c s m).unique hd]

/-- An execution that cuts nothing off is the execution without bounds. -/
theorem run_within_eq {depth states : Option UInt64}
    (hwhole : (run h (c.within depth states) g start s m).1.truncated = false) :
    run h (c.within depth states) g start s m = run h (c.within none none) g start s m := by
  cases he : g.resolve start with
  | none => rw [run, run, he]
  | some e =>
    have hfull : Descends h (c.within none none) g ∅ _ _ _ :=
      (run_descends he h (c.within depth states) s m).unbounded rfl rfl hwhole
    exact (run_eq_of_descends he hfull).symm

/-- A bound on the pairs cuts the walk of an execution. -/
theorem exists_cutTo_run (h : Hooks State Memory) (c : ExecutionConfig) (g : Graph)
    (start : Option NodeId) (s : State) (m : Memory) (states : UInt64) :
    let full := run h (c.within none none) g start s m
    ∃ v, run h (c.within none (some states)) g start s m = (v.trace, v.memory) ∧
      v.trace.Tallied ∧ Walk.CutTo states.toNat ⟨full.1, full.2⟩ v := by
  intro full
  cases he : g.resolve start with
  | none =>
    have hnone : ∀ c', run h c' g start s m = (∅, m) := fun c' => by rw [run, he]
    have hfull : full = (∅, m) := hnone _
    rw [hnone, hfull]
    exact ⟨⟨∅, m⟩, rfl, fun _ => rfl, fun _ => rfl, .refl _,
      fun hmore => absurd hmore (Nat.not_lt_zero _)⟩
  | some e =>
    have hstates : (c.within none (some states)).maxStates = some states := rfl
    obtain ⟨v, hv, hcut⟩ := (run_descends he h (c.within none none) s m).cutTo rfl hstates rfl rfl
      (List.forall_mem_singleton.mpr (Graph.resolve_eq_some_iff.mp he).2) (Nat.zero_le _)
    exact ⟨v, run_eq_of_descends he hv, hv.tallied fun _ => rfl, hcut⟩

/-- **A bound on the processed pairs keeps exactly the first ones.** On every graph, from every
entry and with any hooks, also such that keep a memory: of the pairs that the execution without
bounds processes, that with a bound processes the first ones up to the bound, node by node and state
by state, and it is truncated if and only if there are more. Under whatever bounds, an execution
that is not truncated does what the one without bounds does, and leaves the hooks the same memory.
-/
theorem run_within (h : Hooks State Memory) (c : ExecutionConfig) (g : Graph)
    (start : Option NodeId) (s : State) (m : Memory) :
    let full := run h (c.within none none) g start s m
    (∀ states : UInt64,
      let t := (run h (c.within none (some states)) g start s m).1
      t.order.toList = full.1.order.toList.take (min states.toNat full.1.stateCount) ∧
      (∀ n, t.statesAt n = (full.1.statesAt n).take (t.order.toList.count n)) ∧
      (t.truncated = true ↔ states.toNat < full.1.stateCount)) ∧
    ∀ depth states, (run h (c.within depth states) g start s m).1.truncated = false →
      run h (c.within depth states) g start s m = full := by
  intro full
  refine ⟨fun states => ?_, fun _ _ => run_within_eq⟩
  obtain ⟨v, hrun, htallied, hcut⟩ := exists_cutTo_run h c g start s m states
  rw [hrun]
  refine ⟨?_, hcut.begins.statesAt_eq htallied, fun ht => ?_, fun hmore => (hcut.full hmore).2⟩
  · rw [← hcut.stateCount]
    exact hcut.begins.order_eq
  · refine Nat.lt_of_not_le fun hle => ?_
    have hnot : full.1.truncated = false := truncated_run rfl rfl
    rw [hcut.whole hle] at ht
    exact Bool.noConfusion (ht.symm.trans hnot)

end Run

/-- Hooks that never send the same state twice process five pairs of the complete graph on three
nodes. A bound of three keeps the first three of them and cuts off the others; bounds of two on the
depth and five on the pairs cut nothing off. -/
theorem run_within_complete :
    let c : ExecutionConfig := {}
    let g := Graph.addShape ∅ .complete 3 "n"
    let full := run tally (c.within none none) g (some ⟨0⟩) 0 0
    let first := run tally (c.within none (some 3)) g (some ⟨0⟩) 0 0
    let whole := run tally (c.within (some 2) (some 5)) g (some ⟨0⟩) 0 0
    full.1.order.toList = [⟨0⟩, ⟨1⟩, ⟨2⟩, ⟨2⟩, ⟨1⟩] ∧
      first.1.order.toList = [⟨0⟩, ⟨1⟩, ⟨2⟩] ∧
      full.1.statesAt ⟨2⟩ = [8, 4] ∧ first.1.statesAt ⟨2⟩ = [8] ∧ first.1.truncated = true ∧
      whole.1.truncated = false ∧ whole = full := by
  intro c g full first whole
  obtain ⟨hstates, hwhole⟩ := run_within tally c g (some ⟨0⟩) 0 0
  obtain ⟨-, -, htruncated⟩ := hstates 3
  have hmore : (3 : UInt64).toNat < full.1.stateCount := by decide +kernel
  have hnot : whole.1.truncated = false := by decide +kernel
  exact ⟨by decide +kernel, by decide +kernel, by decide +kernel, by decide +kernel,
    htruncated.mpr hmore, hnot, hwhole (some 2) (some 5) hnot⟩

end Execution

end ProgramGraph
