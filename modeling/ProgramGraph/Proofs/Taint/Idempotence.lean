import ProgramGraph.Proofs.Taint.Exactness

/-!
# When a second run marks nothing

A run from the entry of an earlier run is meant to find nothing left to mark. `idle_analyze_iff`
says exactly when this is so. Identifiers decide which nodes a run enters: a breadth-first walk from
the entry enters the first node that it meets under each identifier and passes over the others
(`Enters`). The second run marks nothing if and only if every node that is entered so and carries
the taint text after the first run has only targets that carry it.

Where identifiers within reach of the entry are unique the condition always holds. Where they are
shared it can fail (`not_idle_analyze_twins`): a node that was visited clean is marked under an
identifier that a twin has made tainted by then; so it counts as neither late nor due, its targets
stay clean, and the second run, which meets it tainted, marks them.
-/

namespace ProgramGraph.Taint

open Relation

/-! ### Entering each identifier once -/

/-- A breadth-first walk comes to enter the node: it takes nodes from a queue, passes over those
whose identifier was seen, enters the others, and queues their targets. -/
inductive Enters (g : Graph) (n : NodeId) : NameSet → List NodeId → Prop
  | here {seen : NameSet} {rest : List NodeId} :
      g.idOf n ∉ seen → Enters g n seen (n :: rest)
  | pass {seen : NameSet} {m : NodeId} {rest : List NodeId} :
      g.idOf m ∈ seen → Enters g n seen rest → Enters g n seen (m :: rest)
  | step {seen : NameSet} {m : NodeId} {rest : List NodeId} :
      g.idOf m ∉ seen → Enters g n (seen.insert (g.idOf m)) (rest ++ g.successors m) →
      Enters g n seen (m :: rest)

section Enters

variable {g : Graph} {n m : NodeId} {seen : NameSet} {queue rest : List NodeId}

theorem enters_append_iff {passed : List NodeId} (h : ∀ m ∈ passed, g.idOf m ∈ seen) :
    Enters g n seen (passed ++ queue) ↔ Enters g n seen queue := by
  induction passed with
  | nil => exact Iff.rfl
  | cons m passed ih =>
    have hm := h m List.mem_cons_self
    rw [← ih fun p hp => h p (List.mem_cons_of_mem m hp)]
    constructor
    · intro hent
      cases hent with
      | here hnot => exact absurd hm hnot
      | pass _ hent => exact hent
      | step hnot _ => exact absurd hm hnot
    · exact Enters.pass hm

/-- Of a queue that starts with a new identifier, the first node is entered, and then the rest with
its targets. -/
theorem enters_cons_iff (h : g.idOf m ∉ seen) : Enters g n seen (m :: rest) ↔
    n = m ∨ Enters g n (seen.insert (g.idOf m)) (rest ++ g.successors m) := by
  constructor
  · intro hent
    cases hent with
    | here _ => exact Or.inl rfl
    | pass hseen _ => exact absurd hseen h
    | step _ hent => exact Or.inr hent
  · rintro (rfl | hent)
    · exact Enters.here h
    · exact Enters.step h hent

/-- Only nodes within reach of the queue are entered. -/
theorem Enters.reach {e : NodeId} (h : Enters g n seen queue)
    (hqueue : ∀ m ∈ queue, ReflTransGen g.Leads e m) : ReflTransGen g.Leads e n := by
  induction h with
  | here _ => exact hqueue n List.mem_cons_self
  | pass _ _ ih => exact ih fun m hm => hqueue m (List.mem_cons_of_mem _ hm)
  | step _ _ ih =>
    refine ih fun m hm => ?_
    rcases List.mem_append.mp hm with hm | hm
    · exact hqueue m (List.mem_cons_of_mem _ hm)
    · exact (hqueue _ List.mem_cons_self).tail hm

/-- Which nodes are entered does not depend on properties. -/
theorem Enters.of_sameShape {h : Graph} (hs : Graph.SameShape g h) (hent : Enters h n seen queue) :
    Enters g n seen queue := by
  induction hent with
  | here hnot =>
    rw [hs.idOf_eq] at hnot
    exact Enters.here hnot
  | pass hseen _ ih =>
    rw [hs.idOf_eq] at hseen
    exact Enters.pass hseen ih
  | step hnot _ ih =>
    rw [hs.idOf_eq] at hnot ih
    rw [hs.successors_eq] at ih
    exact Enters.step hnot ih

end Enters

/-! ### Runs that mark nothing -/

/-- If the node carries the taint text, so do its targets. -/
def ClosedAt (c : TaintConfig) (g : Graph) (n : NodeId) : Prop :=
  carries c g n = true → ∀ t ∈ g.successors n, carries c g t = true

namespace Run

variable {c : TaintConfig} {g : Graph} {r : Run} {n m : NodeId} {rest : List NodeId}

/-- Nothing is marked and nothing is due for a second visit. -/
def Quiet (r : Run) : Prop :=
  (∀ m, m ∉ r.found.marked) ∧ ∀ m, m ∉ r.revisit

theorem Quiet.tainted_iff (hq : r.Quiet) : r.Tainted c g n ↔ carries c g n = true :=
  or_iff_left (hq.1 n)

/-- The visit of a closed node keeps a run quiet. -/
theorem Quiet.visit (hq : r.Quiet) (hk : r.Kept g) (hn : ¬ r.settled g n = true)
    (hclosed : ClosedAt c g n) : (r.visit c g n rest).Quiet := by
  refine ⟨fun m hm => ?_, fun m hm => ?_⟩
  · rcases (mem_marked_visit hk hn).mp hm with hm | ⟨hT, hlead, hclean⟩
    · exact hq.1 m hm
    · rw [hclosed (hq.tainted_iff.mp hT) m hlead] at hclean
      cases hclean
  · rcases (mem_revisit_visit hk hn).mp hm with ⟨-, hm⟩ | ⟨hT, hlead, hclean, -⟩
    · exact hq.2 m hm
    · exact hclean (Or.inl (hclosed (hq.tainted_iff.mp hT) m hlead))

/-- A mark is never taken back. -/
theorem mem_marked_go (hk : r.Kept g) (hm : m ∈ r.found.marked) (left : Nat) :
    m ∈ (go c g left r).found.marked := by
  refine go_keeps (I := fun r => m ∈ r.found.marked) (fun r n rest hk hnext hm => ?_)
    (fun _ hm => hm) hk hm left
  obtain ⟨-, -, -, hn⟩ := exists_of_next?_eq_some hnext
  exact (mem_marked_visit hk hn).mpr (Or.inl hm)

/-- A quiet run enters the first node that it meets under an identifier. -/
theorem Quiet.enters_iff (hq : r.Quiet) (hk : r.Kept g) (hnext : r.next? g = some (n, rest)) :
    Enters g m r.seen r.queue ↔
      m = n ∨ Enters g m (r.visit c g n rest).seen (r.visit c g n rest).queue := by
  obtain ⟨passed, hqueue, hpassed, hn⟩ := exists_of_next?_eq_some hnext
  have hnot : g.idOf n ∉ r.seen := fun hseen => hn (settled_iff.mpr ⟨hseen, hq.2 n⟩)
  have hseen : (r.visit c g n rest).seen = r.seen.insert (g.idOf n) := by
    refine Std.ExtTreeSet.ext_mem fun id => ?_
    rw [mem_seen_visit hk hn, Std.ExtTreeSet.mem_insert, Std.LawfulEqOrd.compare_eq_iff_eq,
      eq_comm]
  rw [hqueue, enters_append_iff fun p hp => (settled_iff.mp (hpassed p hp)).1,
    enters_cons_iff hnot, hseen, queue_visit]

theorem not_enters_of_next?_eq_none (h : r.next? g = none) : ¬ Enters g m r.seen r.queue := by
  rw [← List.append_nil r.queue, enters_append_iff fun p hp => (settled_of_next?_eq_none h hp).1]
  exact fun hent => nomatch hent

/-- **A quiet run stays quiet exactly if every node it comes to enter is closed.** Up to the first
node that is not closed the run stays quiet, and there it marks a target. -/
theorem Quiet.go_iff (hq : r.Quiet) (hk : r.Kept g) {left : Nat} (hwork : r.work g ≤ left) :
    (∀ m, m ∉ (go c g left r).found.marked) ↔
      ∀ m, Enters g m r.seen r.queue → ClosedAt c g m := by
  refine go_induction (c := c) (motive := fun left r => r.Quiet →
    ((∀ m, m ∉ (go c g left r).found.marked) ↔ ∀ m, Enters g m r.seen r.queue → ClosedAt c g m))
    ?_ ?_ hk hwork hq
  · intro left r hnext hq
    rw [go_of_next?_eq_none hnext]
    exact iff_of_true hq.1 fun m hent => absurd hent (not_enters_of_next?_eq_none hnext)
  · intro left r n rest hk hnext ih hq
    obtain ⟨-, -, -, hn⟩ := exists_of_next?_eq_some hnext
    have henters := fun m => hq.enters_iff (c := c) (m := m) hk hnext
    rw [go_succ_of_next?_eq_some hnext]
    by_cases hclosed : ClosedAt c g n
    · rw [ih (hq.visit hk hn hclosed)]
      refine forall_congr' fun m => ?_
      rw [henters]
      constructor
      · rintro h (rfl | hent)
        · exact hclosed
        · exact h hent
      · exact fun h hent => h (Or.inr hent)
    · refine iff_of_false (fun hnone => hclosed fun hcarries t ht => ?_)
        fun h => hclosed (h n ((henters n).mpr (Or.inl rfl)))
      -- a clean target would have been marked, and a mark stays
      by_contra hclean
      refine hnone t (mem_marked_go (hk.visit hnext) ?_ left)
      exact (mem_marked_visit hk hn).mpr
        (Or.inr ⟨Or.inl hcarries, ht, Bool.eq_false_iff.mpr hclean⟩)

end Run

/-- A run without budget marks nothing exactly if every node that it comes to enter is closed. -/
theorem marked_propagate_eq_empty_iff {c : TaintConfig} {g : Graph} {e : NodeId}
    (hmax : c.maxVisits = none) (he : g.contains e = true) :
    (propagate c g (some e)).marked = ∅ ↔ ∀ n, Enters g n ∅ [e] → ClosedAt c g n := by
  have hquiet : (Run.start e).Quiet :=
    ⟨fun _ => Std.ExtTreeSet.not_mem_empty, fun _ => Std.ExtTreeSet.not_mem_empty⟩
  rw [Std.ExtTreeSet.eq_empty_iff_forall_not_mem, Run.propagate_eq_go he,
    hquiet.go_iff (Run.kept_start he) (Run.work_le_visitLimit hmax _)]
  exact Iff.rfl

/-! ### Two runs -/

/-- A run from the entry marks nothing and leaves every property as it is. -/
def Idle (c : TaintConfig) (g : Graph) (entry : Option NodeId) : Prop :=
  (analyze c g entry).1.marked = ∅ ∧
    ∀ n key, (analyze c g entry).2.property n key = g.property n key

theorem idle_iff_marked_eq_empty {c : TaintConfig} {g : Graph} {entry : Option NodeId} :
    Idle c g entry ↔ (propagate c g entry).marked = ∅ := by
  refine ⟨And.left, fun h => ⟨h, fun n key => ?_⟩⟩
  have hsame : writeMarks c g (propagate c g entry) = g := by
    rw [writeMarks, Std.ExtTreeSet.toList_eq_nil_iff.mpr h]
    rfl
  rw [analyze, hsame]

/-- A run marks nothing exactly if every tainted node that is entered has tainted targets only. -/
theorem idle_iff_closedAt {c : TaintConfig} {g : Graph} {entry : Option NodeId}
    (hmax : c.maxVisits = none) : Idle c g entry ↔
      ∀ e, g.resolve entry = some e → ∀ n, Enters g n ∅ [e] → ClosedAt c g n := by
  rw [idle_iff_marked_eq_empty]
  cases hr : g.resolve entry with
  | none =>
    refine iff_of_true ?_ fun e he => nomatch he
    rw [propagate, hr]
    rfl
  | some e =>
    obtain ⟨rfl, he⟩ := Graph.resolve_eq_some_iff.mp hr
    rw [marked_propagate_eq_empty_iff hmax he]
    constructor
    · rintro h e' heq
      cases heq
      exact h
    · exact fun h => h e rfl

theorem sameShape_analyze (c : TaintConfig) (g : Graph) (entry : Option NodeId) :
    Graph.SameShape g (analyze c g entry).2 :=
  Graph.sameShape_setProperties g _ c.key c.value

/-- Where identifiers are unique, a run leaves every node within reach closed. -/
theorem closedAt_analyze {c : TaintConfig} {g : Graph} {e n : NodeId} (hmax : c.maxVisits = none)
    (he : g.contains e = true) (hid : IdentifiesReach g e) (hn : ReflTransGen g.Leads e n) :
    ClosedAt c (analyze c g (some e)).2 n := by
  obtain ⟨r, hr, hend, hs, hcomplete⟩ := Run.exists_propagate_eq (c := c) hmax he
  have hgraph : (analyze c g (some e)).2 = writeMarks c g r.found := by rw [← hr, analyze]
  intro hcarries t ht
  rw [(sameShape_analyze c g (some e)).successors_eq] at ht
  rw [hgraph, hs.carries_writeMarks_iff] at hcarries ⊢
  exact Run.tainted_of_leads (hcomplete hid) hend hs hn hcarries ht

/-- **When a second run is idle.** After a run without budget, a second run from the same entry
marks nothing and changes no property if and only if every node that is the first to be entered
under its identifier, and that carries the taint text after the first run, has only targets that
carry it then. This holds whenever no two nodes within reach of the entry share an identifier. -/
theorem idle_analyze_iff (c : TaintConfig) (g : Graph) (entry : Option NodeId)
    (hmax : c.maxVisits = none) :
    (Idle c (analyze c g entry).2 entry ↔
      ∀ e, g.resolve entry = some e → ∀ n, Enters g n ∅ [e] →
        carries c (analyze c g entry).2 n = true →
        ∀ t ∈ g.successors n, carries c (analyze c g entry).2 t = true) ∧
    ((∀ e, g.resolve entry = some e → IdentifiesReach g e) →
      Idle c (analyze c g entry).2 entry) := by
  have hshape := sameShape_analyze c g entry
  have hiff : Idle c (analyze c g entry).2 entry ↔
      ∀ e, g.resolve entry = some e → ∀ n, Enters g n ∅ [e] →
        ClosedAt c (analyze c g entry).2 n := by
    rw [idle_iff_closedAt hmax, hshape.resolve_eq]
    refine forall₂_congr fun e _ => forall_congr' fun n => ?_
    constructor
    · exact fun h hent => h (hent.of_sameShape hshape.symm)
    · exact fun h hent => h (hent.of_sameShape hshape)
  refine ⟨?_, fun hid => hiff.mpr fun e he n hent => ?_⟩
  · rw [hiff]
    simp only [ClosedAt, hshape.successors_eq]
  · obtain ⟨rfl, hcontains⟩ := Graph.resolve_eq_some_iff.mp he
    refine closedAt_analyze hmax hcontains (hid e he) (hent.reach fun m hm => ?_)
    rw [List.mem_singleton.mp hm]

/-- In the complete graph on three nodes, of which the last is tainted, a second run is idle. -/
theorem idle_analyze_complete :
    let c : TaintConfig := {}
    let g := (Graph.addShape ∅ .complete 3 "n").setProperty ⟨2⟩ "tainted" "true"
    c.maxVisits = none ∧ Idle c (analyze c g (some ⟨0⟩)).2 (some ⟨0⟩) := by
  intro c g
  refine ⟨rfl, (idle_analyze_iff c g (some ⟨0⟩) rfl).2 fun e he => ?_⟩
  obtain ⟨heq, hcontains⟩ := Graph.resolve_eq_some_iff.mp he
  exact identifiesReach_of_nodup (by decide) hcontains

/-- A graph in which the second and the fourth node share an identifier. The entry leads to the
second node and to a tainted one; this leads to the fourth node, which leads to the second, and that
to the last. -/
def twins : Graph :=
  let nodes := ["E", "X", "B", "X", "Y"].foldl (fun g id => (g.addNode id).2) (∅ : Graph)
  let edges := [(0, 1), (0, 2), (2, 3), (3, 1), (1, 4)].foldl
    (fun g (s, t) => (g.connect s!"e{g.edgeCount}" ⟨s⟩ ⟨t⟩).2) nodes
  edges.setProperty ⟨2⟩ "tainted" "true"

/-- The second run marks the last node. -/
theorem not_idle_analyze_twins :
    (analyze {} (analyze {} twins (some ⟨0⟩)).2 (some ⟨0⟩)).1.marked.toList = [⟨4⟩] ∧
      ¬ Idle {} (analyze {} twins (some ⟨0⟩)).2 (some ⟨0⟩) := by
  have hmarked :
      (analyze {} (analyze {} twins (some ⟨0⟩)).2 (some ⟨0⟩)).1.marked.toList = [⟨4⟩] := by
    decide
  refine ⟨hmarked, fun hidle => ?_⟩
  rw [hidle.1] at hmarked
  cases hmarked

end ProgramGraph.Taint
