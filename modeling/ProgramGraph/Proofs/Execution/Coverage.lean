import ProgramGraph.Graph.Shape
import ProgramGraph.Proofs.Execution.Descent
import ProgramGraph.Proofs.Graph.Walk

/-!
# Executions end, and cover what can be reached

`run_ends_and_covers`: without budgets an execution ends and is not truncated, whatever its hooks
do; and if these prune no branch, the processed nodes are the nodes that can be reached from the
entry.

That a node is passed over when it was processed with an equal state is no help here: hooks with a
memory can send a new state along every branch. What ends the search is the path, on which no node
stands twice (`machine_ends`). What makes it cover everything is that each branch of a processed
node leads to a processed node, or back to the path (`Covers`), and the path is empty in the end.
-/

namespace ProgramGraph.Execution

open Relation (ReflTransGen)

universe u v

variable {State : Type u} {Memory : Type v}

/-! ### Branches -/

/-- A state goes on along every edge. -/
def Hooks.NeverPrune (h : Hooks State Memory) : Prop :=
  ∀ edge s m, (h.fork edge s m).1.isSome = true

/-- Hooks that hand the state on prune nothing. -/
theorem Hooks.neverPrune_pass : (Hooks.pass : Hooks State Unit).NeverPrune :=
  fun _ _ _ => rfl

section Branches

variable {h : Hooks State Memory} {g : Graph} {n : NodeId} {s : State}

/-- Branches follow edges of the node, in their order. -/
theorem map_forkAll_sublist (out : List (EdgeId × NodeId)) (m : Memory) :
    ((forkAll h g s out m).1.map fun b => (b.edge, b.target)).Sublist out := by
  induction out generalizing m with
  | nil => exact .slnil
  | cons entry out ih =>
    obtain ⟨e, t⟩ := entry
    rw [forkAll]
    split
    · exact (ih m).cons (e, t)
    · split
      · exact (ih _).cons_cons (e, t)
      · exact (ih _).cons (e, t)

/-- If no branch is pruned, every edge has its branch. -/
theorem map_forkAll_eq (hfork : h.NeverPrune) {out : List (EdgeId × NodeId)}
    (hout : ∀ entry ∈ out, (g.edge? entry.1).isSome = true) (m : Memory) :
    ((forkAll h g s out m).1.map fun b => (b.edge, b.target)) = out := by
  induction out generalizing m with
  | nil => rfl
  | cons entry out ih =>
    obtain ⟨e, t⟩ := entry
    obtain ⟨edge, hedge⟩ := Option.isSome_iff_exists.mp (hout (e, t) List.mem_cons_self)
    obtain ⟨s', hs'⟩ := Option.isSome_iff_exists.mp (hfork edge s m)
    have hrest := ih fun entry hentry => hout entry (List.mem_cons_of_mem (e, t) hentry)
    rcases hboth : h.fork edge s m with ⟨next, m'⟩
    rw [hboth] at hs'
    dsimp only at hs'
    rw [forkAll, hedge]
    simp only [hboth, hs', List.map_cons, hrest]

variable {node : Node} {w : Walk State Memory}

/-- Each branch follows an edge of the node. -/
theorem mem_outgoing_of_mem_branches {b : Branch State} (hb : b ∈ (process h g n node s w).1) :
    (b.edge, b.target) ∈ g.outgoing n := by
  rw [branches_process] at hb
  exact (map_forkAll_sublist _ _).subset
    (List.mem_map_of_mem (f := fun b : Branch State => (b.edge, b.target)) hb)

/-- Branches go where edges lead. -/
theorem leads_of_mem_branches {b : Branch State} (hb : b ∈ (process h g n node s w).1) :
    g.Leads n b.target :=
  Graph.leads_iff.mpr ⟨b.edge, mem_outgoing_of_mem_branches hb⟩

variable (s node w) in
/-- If no branch is pruned, the branches of a node are its edges, in their order. -/
theorem map_branches_eq (hfork : h.NeverPrune) :
    ((process h g n node s w).1.map fun b => (b.edge, b.target)) = g.outgoing n := by
  refine map_forkAll_eq hfork (fun entry hentry => ?_) _
  simp only [Graph.outgoing, List.mem_filterMap, Option.map_eq_some_iff] at hentry
  obtain ⟨e, -, t, htarget, rfl⟩ := hentry
  obtain ⟨edge, hedge, -⟩ := Option.bind_eq_some_iff.mp htarget
  exact Option.isSome_iff_exists.mpr ⟨edge, hedge⟩

/-- If no branch is pruned, each target of the node has a branch that leads there. -/
theorem exists_mem_branches (hfork : h.NeverPrune) {t : NodeId} (ht : g.Leads n t) :
    ∃ b ∈ (process h g n node s w).1, b.target = t := by
  obtain ⟨e, hout⟩ := Graph.leads_iff.mp ht
  rw [← map_branches_eq s node w hfork] at hout
  obtain ⟨b, hb, heq⟩ := List.mem_map.mp hout
  exact ⟨b, hb, (Prod.mk.inj heq).2⟩

end Branches

/-! ### What a search adds -/

/-- From one trace to a later one: every node that was to be entered is processed or on the path,
and so is every target of a node that is processed in between. -/
structure Covers (g : Graph) (path : NodeSet) (entries : List (Entry State))
    (t t' : Trace State) : Prop where
  entered : ∀ entry ∈ entries, g.contains entry.node = true →
    entry.node ∈ t'.states ∨ entry.node ∈ path
  closed : ∀ n ∈ t'.states, n ∈ t.states ∨ ∀ m, g.Leads n m → m ∈ t'.states ∨ m ∈ path

section Descent

variable [DecidableEq State] {h : Hooks State Memory} {c : ExecutionConfig} {g : Graph}
  {path : NodeSet} {entries : List (Entry State)} {w w' : Walk State Memory}

/-- No processed node is lost. -/
theorem Descends.kept (hd : Descends h c g path entries w w') {m : NodeId}
    (hm : m ∈ w.trace.states) : m ∈ w'.trace.states := by
  induction hd with
  | done => exact hm
  | back _ _ ih =>
    rw [Trace.states_recordBackEdge] at ih
    exact ih hm
  | seen _ _ _ ih => exact ih hm
  | cut _ _ _ _ ih => exact ih hm
  | missing _ _ _ _ _ ih => exact ih hm
  | expand _ _ _ _ _ _ ihbranches ihrest =>
    exact ihrest (ihbranches (mem_states_process.mpr (Or.inl hm)))

/-- Without budgets nothing is cut off. -/
theorem Descends.truncated_eq (hd : Descends h c g path entries w w') (hdepth : c.maxDepth = none)
    (hstates : c.maxStates = none) : w'.trace.truncated = w.trace.truncated := by
  induction hd with
  | done => rfl
  | back _ _ ih => rw [ih, Trace.truncated_recordBackEdge]
  | seen _ _ _ ih => exact ih
  | cut _ _ hbudget => simp [overBudget, hdepth, hstates] at hbudget
  | missing _ _ _ _ _ ih => exact ih
  | expand _ _ _ _ _ _ ihbranches ihrest => rw [ihrest, ihbranches, truncated_process]

/-- Only what can be reached is processed. -/
theorem Descends.reaches (hd : Descends h c g path entries w w') {m : NodeId}
    (hm : m ∈ w'.trace.states) :
    m ∈ w.trace.states ∨ ∃ entry ∈ entries, ReflTransGen g.Leads entry.node m := by
  induction hd generalizing m with
  | done => exact Or.inl hm
  | back _ _ ih =>
    rw [Trace.states_recordBackEdge] at ih
    exact (ih hm).imp_right List.exists_mem_cons_of_exists
  | seen _ _ _ ih => exact (ih hm).imp_right List.exists_mem_cons_of_exists
  | cut _ _ _ _ ih => exact (ih hm).imp_right List.exists_mem_cons_of_exists
  | missing _ _ _ _ _ ih => exact (ih hm).imp_right List.exists_mem_cons_of_exists
  | @expand path via n s rest w w' w'' node _ _ _ _ _ _ ihbranches ihrest =>
    rcases ihrest hm with hm | ⟨entry, hentry, hreach⟩
    · rcases ihbranches hm with hm | ⟨entry, hentry, hreach⟩
      · rw [mem_states_process] at hm
        refine hm.imp_right ?_
        rintro rfl
        exact ⟨_, List.mem_cons_self, .refl⟩
      · obtain ⟨b, hb, rfl⟩ := List.mem_map.mp hentry
        exact Or.inr ⟨⟨via, n, s⟩, List.mem_cons_self, .head (leads_of_mem_branches hb) hreach⟩
    · exact Or.inr ⟨entry, List.mem_cons_of_mem _ hentry, hreach⟩

/-- **A search without budgets covers**, if its hooks prune nothing. -/
theorem Descends.covers (hd : Descends h c g path entries w w') (hdepth : c.maxDepth = none)
    (hstates : c.maxStates = none) (hfork : h.NeverPrune) :
    Covers g path entries w.trace w'.trace := by
  induction hd with
  | done => exact ⟨fun _ hentry => absurd hentry List.not_mem_nil, fun _ => Or.inl⟩
  | back hn _ ih =>
    obtain ⟨hentered, hclosed⟩ := ih
    rw [Trace.states_recordBackEdge] at hclosed
    exact ⟨List.forall_mem_cons.mpr ⟨fun _ => Or.inr hn, hentered⟩, hclosed⟩
  | seen _ hs hrest ih =>
    refine ⟨List.forall_mem_cons.mpr ⟨fun _ => Or.inl ?_, ih.entered⟩, ih.closed⟩
    exact hrest.kept (Trace.mem_states_of_mem_statesAt hs)
  | cut _ _ hbudget => simp [overBudget, hdepth, hstates] at hbudget
  | missing _ _ _ hnode _ ih =>
    refine ⟨List.forall_mem_cons.mpr ⟨fun hcontains => ?_, ih.entered⟩, ih.closed⟩
    exact absurd hcontains (Graph.not_contains_of_node? hnode)
  | @expand path via n s rest w w' w'' node _ _ _ _ hbranches hrest ihbranches ihrest =>
    have hself : n ∈ w''.trace.states :=
      hrest.kept (hbranches.kept (mem_states_process.mpr (Or.inr rfl)))
    -- what the branches leave to the path with the node on it, is left to the path or is the node
    have hahead : ∀ {m}, m ∈ w'.trace.states ∨ m ∈ path.insert n →
        m ∈ w''.trace.states ∨ m ∈ path := by
      rintro m (hm | hm)
      · exact Or.inl (hrest.kept hm)
      · rcases mem_insert_path.mp hm with rfl | hm
        · exact Or.inl hself
        · exact Or.inr hm
    refine ⟨List.forall_mem_cons.mpr ⟨fun _ => Or.inl hself, ihrest.entered⟩, fun m hm => ?_⟩
    rcases ihrest.closed m hm with hm | hm
    · rcases ihbranches.closed m hm with hm | hm
      · rw [mem_states_process] at hm
        refine hm.imp_right ?_
        rintro rfl t ht
        obtain ⟨b, hb, rfl⟩ := exists_mem_branches hfork ht
        refine hahead (ihbranches.entered b.entry (List.mem_map_of_mem hb) ?_)
        exact Graph.contains_of_mem_adjacent (d := .forward) ht
      · exact Or.inr fun t ht => hahead (hm t ht)
    · exact Or.inr hm

end Descent

/-! ### Whole executions -/

section Run

variable [DecidableEq State] {h : Hooks State Memory} {c : ExecutionConfig} {g : Graph}
  {start : Option NodeId} {s : State} {m : Memory}

/-- Only what can be reached from the entry is processed. -/
theorem reaches_of_mem_states_run {n : NodeId} (hn : n ∈ (run h c g start s m).1.states) :
    ∃ e, g.resolve start = some e ∧ ReflTransGen g.Leads e n := by
  cases he : g.resolve start with
  | none =>
    rw [run, he] at hn
    exact absurd hn Std.ExtTreeMap.not_mem_empty
  | some e =>
    rcases (run_descends he h c s m).reaches hn with hn | ⟨entry, hentry, hreach⟩
    · exact absurd hn Std.ExtTreeMap.not_mem_empty
    · rw [List.mem_singleton.mp hentry] at hreach
      exact ⟨e, rfl, hreach⟩

/-- Only nodes of the graph are processed. -/
theorem contains_of_mem_processed_run {n : NodeId} (hn : n ∈ (run h c g start s m).1.processed) :
    g.contains n = true := by
  obtain ⟨e, he, hreach⟩ := reaches_of_mem_states_run (Trace.mem_processed.mp hn)
  exact Graph.contains_of_reaches (Graph.resolve_eq_some_iff.mp he).2 hreach

/-- The entry is processed, unless a budget allows nothing at all. -/
theorem mem_states_run_entry {e : NodeId} (he : g.resolve start = some e)
    (hbudget : overBudget c 0 0 = false) : e ∈ (run h c g start s m).1.states := by
  cases run_descends he h c s m with
  | back hpath => exact absurd hpath Std.ExtTreeSet.not_mem_empty
  | seen _ hseen => exact absurd hseen List.not_mem_nil
  | cut _ _ hcut => exact absurd (hcut.symm.trans hbudget) Bool.noConfusion
  | missing _ _ _ hnode =>
    exact absurd (Graph.resolve_eq_some_iff.mp he).2 (Graph.not_contains_of_node? hnode)
  | expand _ _ _ _ hbranches hrest =>
    exact hrest.kept (hbranches.kept (mem_states_process.mpr (Or.inr rfl)))

/-- Everything that can be reached is processed, without budgets and if no branch is pruned. -/
theorem mem_states_run_of_reaches (hdepth : c.maxDepth = none) (hstates : c.maxStates = none)
    (hfork : h.NeverPrune) {e n : NodeId} (he : g.resolve start = some e)
    (hreach : ReflTransGen g.Leads e n) : n ∈ (run h c g start s m).1.states := by
  have hcovers := (run_descends he h c s m).covers hdepth hstates hfork
  induction hreach with
  | refl =>
    refine (hcovers.entered _ (List.mem_singleton_self _) ?_).resolve_right
      Std.ExtTreeSet.not_mem_empty
    exact (Graph.resolve_eq_some_iff.mp he).2
  | tail _ hleads ih =>
    have hclosed := (hcovers.closed _ ih).resolve_left Std.ExtTreeMap.not_mem_empty
    exact (hclosed _ hleads).resolve_right Std.ExtTreeSet.not_mem_empty

/-- Without budgets nothing is cut off. -/
theorem truncated_run (hdepth : c.maxDepth = none) (hstates : c.maxStates = none) :
    (run h c g start s m).1.truncated = false := by
  cases he : g.resolve start with
  | none =>
    rw [run, he]
    rfl
  | some e => exact (run_descends he h c s m).truncated_eq hdepth hstates

/-- **Executions end and cover.** Without budgets, on every graph and with any hooks, also such that
keep a memory and never send the same state twice: the machine comes to a stop with what the
execution gives, which is not truncated; and if the hooks prune no branch, the processed nodes are
those that can be reached from the entry over outgoing edges. -/
theorem run_ends_and_covers (h : Hooks State Memory) (c : ExecutionConfig) (g : Graph)
    (start : Option NodeId) (s : State) (m : Memory) (hdepth : c.maxDepth = none)
    (hstates : c.maxStates = none) :
    let t := (run h c g start s m).1
    let m' := (run h c g start s m).2
    (Machine.start g start s m).EndsAs h c g ⟨[], ∅, ⟨t, m'⟩⟩ ∧ t.truncated = false ∧
      (h.NeverPrune → ∀ n, n ∈ t.processed ↔
        ∃ e, g.resolve start = some e ∧ ReflTransGen g.Leads e n) := by
  intro t m'
  refine ⟨machine_ends h c g start s m, truncated_run hdepth hstates, fun hfork n => ?_⟩
  rw [Trace.mem_processed]
  constructor
  · exact reaches_of_mem_states_run
  · rintro ⟨e, he, hreach⟩
    exact mem_states_run_of_reaches hdepth hstates hfork he hreach

end Run

/-- Hooks that number their calls: every node and every edge gives the state a number that was not
there before. -/
def tally : Hooks Nat Nat where
  transfer _ _ calls := (calls + 1, calls + 1)
  fork _ _ calls := (some (calls + 1), calls + 1)

/-- In the complete graph on three nodes no state comes twice, so that only the path ends the
search: it processes five pairs, one for each way through the graph that repeats no node. -/
theorem run_ends_and_covers_complete :
    let c : ExecutionConfig := {}
    let g := Graph.addShape ∅ .complete 3 "n"
    let t := (run tally c g (some ⟨0⟩) 0 0).1
    c.maxDepth = none ∧ c.maxStates = none ∧ tally.NeverPrune ∧ t.stateCount = 5 ∧
      t.truncated = false ∧ ⟨2⟩ ∈ t.processed := by
  intro c g t
  have hfork : tally.NeverPrune := fun _ _ _ => rfl
  obtain ⟨-, htruncated, hcovers⟩ := run_ends_and_covers tally c g (some ⟨0⟩) 0 0 rfl rfl
  refine ⟨rfl, rfl, hfork, by decide +kernel, htruncated, (hcovers hfork ⟨2⟩).mpr ?_⟩
  exact ⟨⟨0⟩, by decide, .single (by decide)⟩

end ProgramGraph.Execution
