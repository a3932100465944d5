import Mathlib.Data.List.Nodup
import ProgramGraph.Proofs.Execution.FeasibleWalk
import ProgramGraph.Proofs.Execution.Search

/-!
# What the search leaves behind

The depth-first search processes a pair of node and state once, at the end of the walk on which it
was met first. Branches that lead back onto that walk are dropped and recorded as back edges, all
others are followed; so each of them leads to a pair that is recorded sooner or later. A pair for
which this holds is expanded (`Expanded`).

Entering a node only ever adds pairs that are expanded by the time the search comes back from there
(`Advances`). One induction over the search shows it (`enter_advances`), with the walk that the
search stands on as its invariant (`Enters`); what a whole execution leaves behind is the case of an
empty trace (`run_spec`).
-/

namespace ProgramGraph.Execution

universe u

variable {State : Type u}

section Expansion

variable (h : Hooks State Unit) (g : Graph) (entry : NodeId) (initial : State)

/-- The pair stands at the end of a walk that repeats no node, and each of its branches led to a
recorded pair, or was recorded as leading back onto that walk. -/
def Expanded (t : Trace State) (n : NodeId) (s : State) : Prop :=
  ∃ steps, Feasible h g entry initial steps n s ∧ (walkNodes entry steps).Nodup ∧
    ∀ e m s', (e, m) ∈ g.outgoing n → passOn h g n e s = some s' →
      s' ∈ t.statesAt m ∨ m ∈ walkNodes entry steps ∧ e ∈ t.backEdges

/-- The edge leads from the end of a walk that repeats no node back onto it. -/
def LeadsBack (e : EdgeId) : Prop :=
  ∃ steps n s m, Feasible h g entry initial steps n s ∧ (walkNodes entry steps).Nodup ∧
    (e, m) ∈ g.outgoing n ∧ m ∈ walkNodes entry steps

/-- From one trace to a later one: nothing is lost, every pair that is added is expanded, and every
back edge that is added leads back. -/
structure Advances (t t' : Trace State) : Prop where
  statesAt_subset : ∀ n s, s ∈ t.statesAt n → s ∈ t'.statesAt n
  backEdges_subset : ∀ e, e ∈ t.backEdges → e ∈ t'.backEdges
  expanded : ∀ n s, s ∈ t'.statesAt n → s ∈ t.statesAt n ∨ Expanded h g entry initial t' n s
  leadsBack : ∀ e, e ∈ t'.backEdges → e ∈ t.backEdges ∨ LeadsBack h g entry initial e

/-- The search enters a node at the end of a feasible walk, with the nodes before it as its path. -/
structure Enters (path : NodeSet) (via : Option EdgeId) (n : NodeId) (s : State)
    (steps : List (EdgeId × NodeId)) : Prop where
  feasible : Feasible h g entry initial steps n s
  mem_path_iff : ∀ m, m ∈ path ↔ m ∈ (walkNodes entry steps).dropLast
  nodup : (walkNodes entry steps).dropLast.Nodup
  via_eq : via = steps.getLast?.map Prod.fst

/-- What entering a node leaves behind: the state is recorded, or the edge if the node is on the
path. -/
def Entered (path : NodeSet) (via : Option EdgeId) (n : NodeId) (s : State) (t : Trace State) :
    Prop :=
  if n ∈ path then ∀ e ∈ via, e ∈ t.backEdges else s ∈ t.statesAt n

end Expansion

variable {h : Hooks State Unit} {c : ExecutionConfig} {g : Graph} {entry n m : NodeId}
  {initial s : State} {t t' t'' : Trace State} {path : NodeSet} {via : Option EdgeId}
  {steps : List (EdgeId × NodeId)}

/-! ### Later traces -/

/-- A pair stays expanded. -/
theorem Expanded.mono (hs : Expanded h g entry initial t n s)
    (ht : Advances h g entry initial t t') : Expanded h g entry initial t' n s := by
  obtain ⟨steps, hwalk, hnodup, hbranches⟩ := hs
  refine ⟨steps, hwalk, hnodup, fun e m s' hout hpass => ?_⟩
  refine (hbranches e m s' hout hpass).imp (ht.statesAt_subset m s') fun hback => ?_
  exact ⟨hback.1, ht.backEdges_subset e hback.2⟩

/-- What was left behind stays. -/
theorem Entered.mono (hs : Entered path via n s t) (ht : Advances h g entry initial t t') :
    Entered path via n s t' := by
  unfold Entered at hs ⊢
  split
  · rename_i hn
    rw [if_pos hn] at hs
    exact fun e he => ht.backEdges_subset e (hs e he)
  · rename_i hn
    rw [if_neg hn] at hs
    exact ht.statesAt_subset n s hs

namespace Advances

protected theorem refl (t : Trace State) : Advances h g entry initial t t :=
  ⟨fun _ _ hs => hs, fun _ he => he, fun _ _ hs => Or.inl hs, fun _ he => Or.inl he⟩

protected theorem trans (ht : Advances h g entry initial t t')
    (ht' : Advances h g entry initial t' t'') : Advances h g entry initial t t'' where
  statesAt_subset n s hs := ht'.statesAt_subset n s (ht.statesAt_subset n s hs)
  backEdges_subset e he := ht'.backEdges_subset e (ht.backEdges_subset e he)
  expanded n s hs := by
    rcases ht'.expanded n s hs with hs | hs
    · exact (ht.expanded n s hs).imp_right fun hexpanded => hexpanded.mono ht'
    · exact Or.inr hs
  leadsBack e he := by
    rcases ht'.leadsBack e he with he | he
    · exact ht.leadsBack e he
    · exact Or.inr he

/-- Entering the branches of a node one after the other. -/
theorem foldl {f : Walk State Unit → Branch State → Walk State Unit} {bs : List (Branch State)}
    {Done : Branch State → Trace State → Prop}
    (hf : ∀ b ∈ bs, ∀ w, Advances h g entry initial w.trace (f w b).trace ∧ Done b (f w b).trace)
    (hmono : ∀ b t t', Done b t → Advances h g entry initial t t' → Done b t')
    (w : Walk State Unit) : Advances h g entry initial w.trace (bs.foldl f w).trace ∧
      ∀ b ∈ bs, Done b (bs.foldl f w).trace := by
  induction bs generalizing w with
  | nil => exact ⟨Advances.refl _, fun b hb => nomatch hb⟩
  | cons b bs ih =>
    obtain ⟨hfirst, hdone⟩ := hf b List.mem_cons_self w
    obtain ⟨hrest, hall⟩ := ih (fun b' hb' => hf b' (List.mem_cons_of_mem b hb')) (f w b)
    refine ⟨hfirst.trans hrest, fun b' hb' => ?_⟩
    rcases List.mem_cons.mp hb' with rfl | hb'
    · exact hmono b' _ _ hdone hrest
    · exact hall b' hb'

end Advances

/-! ### Where the search stands -/

namespace Enters

/-- The entry is entered with an empty path. -/
theorem start : Enters h g entry initial ∅ none entry initial [] where
  feasible := Feasible.start
  mem_path_iff m := by simp [walkNodes, Std.ExtTreeSet.not_mem_empty]
  nodup := List.nodup_nil
  via_eq := rfl

variable (hs : Enters h g entry initial path via n s steps)

include hs

/-- With its end, the path is the set of the nodes of the walk. -/
theorem mem_insert_iff : m ∈ path.insert n ↔ m ∈ walkNodes entry steps := by
  rw [hs.feasible.walkNodes_eq, List.mem_append, ← hs.mem_path_iff, List.mem_singleton,
    Std.ExtTreeSet.mem_insert, Std.LawfulEqOrd.compare_eq_iff_eq, or_comm, eq_comm]

/-- A walk to a node off its path repeats no node. -/
theorem nodup_walkNodes (hn : n ∉ path) : (walkNodes entry steps).Nodup := by
  rw [hs.feasible.walkNodes_eq, List.nodup_append]
  refine ⟨hs.nodup, List.nodup_singleton n, fun m hm m' hm' => ?_⟩
  rw [List.mem_singleton.mp hm']
  rintro rfl
  exact hn ((hs.mem_path_iff m).mpr hm)

/-- A branch of the node is entered a step further along the walk. -/
theorem branch (hn : n ∉ path) {e : EdgeId} {s' : State} (hout : (e, m) ∈ g.outgoing n)
    (hpass : passOn h g n e s = some s') :
    Enters h g entry initial (path.insert n) (some e) m s' (steps ++ [(e, m)]) where
  feasible := hs.feasible.step hout hpass
  mem_path_iff p := by rw [dropLast_walkNodes_concat, hs.mem_insert_iff]
  nodup := by
    rw [dropLast_walkNodes_concat]
    exact hs.nodup_walkNodes hn
  via_eq := by simp

/-- An edge over which the search comes back to its path leads back. -/
theorem leadsBack (hn : n ∈ path) {e : EdgeId} (he : via = some e) :
    LeadsBack h g entry initial e := by
  have hpassed := (hs.mem_path_iff n).mp hn
  have hnodup := hs.nodup
  have hvia := hs.via_eq
  cases hs.feasible with
  | start => exact absurd hpassed List.not_mem_nil
  | @step steps p s' e' t s'' hwalk hout hpass =>
    rw [dropLast_walkNodes_concat] at hpassed hnodup
    rw [he] at hvia
    simp only [List.getLast?_concat, Option.map_some, Option.some.injEq] at hvia
    rw [hvia]
    exact ⟨steps, p, s', n, hwalk, hnodup, hout, hpassed⟩

end Enters

/-! ### The search -/

/-- Coming back to the path records the edge. -/
theorem recordBackEdge_advances (hs : Enters h g entry initial path via n s steps)
    (hn : n ∈ path) : Advances h g entry initial t (t.recordBackEdge via) ∧
      Entered path via n s (t.recordBackEdge via) := by
  rw [Entered, if_pos hn]
  refine ⟨⟨fun m s' hs' => ?_, fun e he => ?_, fun m s' hs' => ?_, fun e he => ?_⟩,
    fun e he => ?_⟩
  · rwa [Trace.statesAt_recordBackEdge]
  · exact Trace.mem_backEdges_recordBackEdge.mpr (Or.inl he)
  · rw [Trace.statesAt_recordBackEdge] at hs'
    exact Or.inl hs'
  · exact (Trace.mem_backEdges_recordBackEdge.mp he).imp_right (hs.leadsBack hn)
  · exact Trace.mem_backEdges_recordBackEdge.mpr (Or.inr he)

/-- A pair that is recorded is expanded once all its branches were entered. -/
theorem record_advances (hs : Enters h g entry initial path via n s steps) (hn : n ∉ path)
    (hrecorded : ∀ m s', s' ∈ t'.statesAt m ↔ s' ∈ t.statesAt m ∨ m = n ∧ s' = s)
    (hback : t'.backEdges = t.backEdges) (hbranches : ∀ e m s', (e, m) ∈ g.outgoing n →
      passOn h g n e s = some s' → Entered (path.insert n) (some e) m s' t'')
    (hadvances : Advances h g entry initial t' t'') :
    Advances h g entry initial t t'' ∧ Entered path via n s t'' := by
  have hexpanded : Expanded h g entry initial t'' n s := by
    refine ⟨steps, hs.feasible, hs.nodup_walkNodes hn, fun e m s' hout hpass => ?_⟩
    have hentered := hbranches e m s' hout hpass
    unfold Entered at hentered
    split at hentered
    · rename_i hm
      exact Or.inr ⟨hs.mem_insert_iff.mp hm, hentered e rfl⟩
    · exact Or.inl hentered
  have hself : s ∈ t''.statesAt n :=
    hadvances.statesAt_subset n s ((hrecorded n s).mpr (Or.inr ⟨rfl, rfl⟩))
  rw [Entered, if_neg hn]
  refine ⟨⟨fun m s' hs' => ?_, fun e he => ?_, fun m s' hs' => ?_, fun e he => ?_⟩, hself⟩
  · exact hadvances.statesAt_subset m s' ((hrecorded m s').mpr (Or.inl hs'))
  · exact hadvances.backEdges_subset e (by rwa [hback])
  · rcases hadvances.expanded m s' hs' with hs' | hs'
    · rcases (hrecorded m s').mp hs' with hs' | ⟨rfl, rfl⟩
      · exact Or.inl hs'
      · exact Or.inr hexpanded
    · exact Or.inr hs'
  · rw [← hback]
    exact hadvances.leadsBack e he

variable [DecidableEq State] {w : Walk State Unit} {room : Nat} {start : Option NodeId}

/-- **The search advances**: whatever it adds on entering a node is expanded by the time it comes
back from there. -/
theorem enter_advances (hdepth : c.maxDepth = none) (hstates : c.maxStates = none)
    (hentry : g.contains entry = true) (hs : Enters h g entry initial path via n s steps)
    (hroom : steps.length + room = g.nodeCount) :
    Advances h g entry initial w.trace (enter h c g room path via n s w).trace ∧
      Entered path via n s (enter h c g room path via n s w).trace := by
  -- on the number of nodes off the path; what varies is the walk on which the search stands
  induction room using Nat.strongRecOn generalizing path via n s steps w with
  | ind room ih =>
    by_cases hn : n ∈ path
    · rw [enter_of_mem_path hn]
      exact recordBackEdge_advances hs hn
    by_cases hseen : s ∈ w.trace.statesAt n
    · rw [enter_of_seen hn hseen, Entered, if_neg hn]
      exact ⟨Advances.refl w.trace, hseen⟩
    -- a new pair is processed: the walk to it repeats no node, so there is room
    have hlength := hs.feasible.length_lt hentry (hs.nodup_walkNodes hn)
    obtain ⟨less, rfl⟩ : ∃ less, room = less + 1 := ⟨room - 1, by omega⟩
    obtain ⟨node, hnode⟩ := Graph.exists_node?_of_contains (hs.feasible.contains_end hentry)
    have hbudget : overBudget c path.size w.trace.stateCount = false := by
      simp [overBudget, hdepth, hstates]
    have hbranch : ∀ b ∈ (process h g n node s w).1, ∀ w, Advances h g entry initial w.trace
          (enter h c g less (path.insert n) (some b.edge) b.target b.state w).trace ∧
        Entered (path.insert n) (some b.edge) b.target b.state
          (enter h c g less (path.insert n) (some b.edge) b.target b.state w).trace := by
      intro b hb w
      obtain ⟨hout, hpass⟩ := (mem_branches_iff hnode).mp hb
      refine ih less (Nat.lt_succ_self less) (hs.branch hn hout hpass) ?_
      rw [List.length_append, List.length_singleton]
      omega
    obtain ⟨hadvances, hentered⟩ := Advances.foldl hbranch (fun _ _ _ hb ht => hb.mono ht)
      (process h g n node s w).2
    rw [enter_process hn hseen hbudget hnode]
    refine record_advances hs hn (fun m s' => ?_) backEdges_process (fun e m s' hout hpass => ?_)
      hadvances
    · rw [statesAt_process]
      exact Trace.mem_statesAt_record
    · exact hentered ⟨e, m, s'⟩ ((mem_branches_iff hnode).mpr ⟨hout, hpass⟩)

/-- What an execution without budgets leaves behind: the initial state is recorded at the entry,
every recorded pair is expanded, and every back edge leads back. -/
theorem run_spec (hdepth : c.maxDepth = none) (hstates : c.maxStates = none)
    (hentry : g.resolve start = some entry) (h : Hooks State Unit) (initial : State) :
    initial ∈ (run h c g start initial ()).1.statesAt entry ∧
      (∀ n s, s ∈ (run h c g start initial ()).1.statesAt n →
        Expanded h g entry initial (run h c g start initial ()).1 n s) ∧
      ∀ e, e ∈ (run h c g start initial ()).1.backEdges → LeadsBack h g entry initial e := by
  have hcontains := (Graph.resolve_eq_some_iff.mp hentry).2
  have hstart : Enters h g entry initial ∅ none entry initial [] := Enters.start
  obtain ⟨hadvances, hentered⟩ := enter_advances (w := ⟨{ entry := some entry }, ()⟩) hdepth hstates
    hcontains hstart (Nat.zero_add g.nodeCount)
  rw [Entered, if_neg Std.ExtTreeSet.not_mem_empty] at hentered
  rw [run, hentry]
  -- the search starts from an empty trace, so it added all there is
  refine ⟨hentered, fun n s hs => ?_, fun e he => ?_⟩
  · refine (hadvances.expanded n s hs).resolve_left fun hnone => ?_
    simp [Trace.statesAt] at hnone
  · refine (hadvances.leadsBack e he).resolve_left fun hnone => ?_
    simp at hnone

end ProgramGraph.Execution
