import ProgramGraph.Graph.Shape
import ProgramGraph.Proofs.Graph.Properties
import ProgramGraph.Proofs.Graph.Walk
import ProgramGraph.Proofs.Taint.Run

/-!
# Taint propagation is exact

`analyze_exact`: where no two nodes within reach of the entry share an identifier, a run without
budget marks exactly the clean nodes that lie behind a tainted node within reach.

Two invariants carry the proof. `Sound` says that everything a run finds is there, and that the
targets of a node that was visited tainted are tainted; it needs nothing of the identifiers.
`Complete` says that nothing within reach is forgotten: what was not visited is queued, and a node
that was visited clean and marked afterwards is due for a second visit and queued for it. Only here
one identifier must stand for one node.
-/

namespace ProgramGraph.Taint

open Relation

/-- No two nodes within reach of the entry share an identifier. -/
def IdentifiesReach (g : Graph) (e : NodeId) : Prop :=
  ∀ m n, ReflTransGen g.Leads e m → ReflTransGen g.Leads e n → g.idOf m = g.idOf n → m = n

/-- Identifiers that differ throughout the graph differ within reach. -/
theorem identifiesReach_of_nodup {g : Graph} {e : NodeId} (hnodup : (g.nodeIds.map g.idOf).Nodup)
    (he : g.contains e = true) : IdentifiesReach g e := by
  have hcontains : ∀ {n}, ReflTransGen g.Leads e n → n ∈ g.nodeIds := by
    intro n hn
    rw [Graph.mem_nodeIds]
    cases hn with
    | refl => exact he
    | tail _ hlead => exact Graph.contains_of_mem_adjacent (d := .forward) hlead
  exact fun m n hm hn heq => List.inj_on_of_nodup_map hnodup (hcontains hm) (hcontains hn) heq

namespace Run

variable {c : TaintConfig} {g : Graph} {e : NodeId} {r : Run} {n m t : NodeId}
  {rest : List NodeId}

/-! ### Everything found is there -/

variable (c g e r) in
/-- What a run has found comes from a tainted node within reach of the entry. -/
structure Sound : Prop where
  queue_reach : ∀ m ∈ r.queue, ReflTransGen g.Leads e m
  marked_behind : ∀ m ∈ r.found.marked, carries c g m = false ∧
    ∃ t, ReflTransGen g.Leads e t ∧ carries c g t = true ∧ TransGen g.Leads t m
  sources_tainted : ∀ m ∈ r.found.sources, ReflTransGen g.Leads e m ∧ r.Tainted c g m
  sources_spread : ∀ m ∈ r.found.sources, ∀ t ∈ g.successors m, r.Tainted c g t
  taintedIds_iff : ∀ id, id ∈ r.found.taintedIds ↔ ∃ m ∈ r.found.sources, g.idOf m = id

theorem sound_start : (start e).Sound c g e := by
  refine ⟨fun m hm => ?_, fun m hm => ?_, fun m hm => ?_, fun m hm => ?_, fun id => ?_⟩
  · rw [List.mem_singleton.mp hm]
  · exact absurd hm Std.ExtTreeSet.not_mem_empty
  · exact absurd hm Std.ExtTreeSet.not_mem_empty
  · exact absurd hm Std.ExtTreeSet.not_mem_empty
  · refine ⟨fun hid => absurd hid Std.ExtTreeSet.not_mem_empty, ?_⟩
    rintro ⟨m, hm, -⟩
    exact absurd hm Std.ExtTreeSet.not_mem_empty

/-- Whatever a visit adds comes from the node it enters. -/
theorem Sound.visit (hs : r.Sound c g e) (hk : r.Kept g)
    (hnext : r.next? g = some (n, rest)) : (r.visit c g n rest).Sound c g e := by
  obtain ⟨passed, hqueue, -, hn⟩ := exists_of_next?_eq_some hnext
  have hreach : ReflTransGen g.Leads e n := hs.queue_reach n (by rw [hqueue]; simp)
  have hgrow : ∀ {m}, r.Tainted c g m → (r.visit c g n rest).Tainted c g m := fun hT =>
    (tainted_visit hk hn).mpr (Or.inl hT)
  refine ⟨fun m hm => ?_, fun m hm => ?_, fun m hm => ?_, fun m hm t ht => ?_, fun id => ?_⟩
  · rw [queue_visit, List.mem_append] at hm
    rcases hm with hm | hm
    · exact hs.queue_reach m (by rw [hqueue]; simp [hm])
    · exact hreach.tail hm
  · rcases (mem_marked_visit hk hn).mp hm with hm | ⟨hT, hlead, hclean⟩
    · exact hs.marked_behind m hm
    · -- marked by this visit: the taint is the visited node's own, or comes from where that got it
      refine ⟨hclean, ?_⟩
      rcases hT with hcarries | hmarked
      · exact ⟨n, hreach, hcarries, TransGen.single hlead⟩
      · obtain ⟨-, t, ht, hcarries, hbehind⟩ := hs.marked_behind n hmarked
        exact ⟨t, ht, hcarries, hbehind.tail hlead⟩
  · rcases (mem_sources_visit hk hn).mp hm with hm | ⟨rfl, hT⟩
    · exact ⟨(hs.sources_tainted m hm).1, hgrow (hs.sources_tainted m hm).2⟩
    · exact ⟨hreach, hgrow hT⟩
  · rcases (mem_sources_visit hk hn).mp hm with hm | ⟨rfl, hT⟩
    · exact hgrow (hs.sources_spread m hm t ht)
    · exact (tainted_visit hk hn).mpr (Or.inr ⟨hT, ht⟩)
  · rw [mem_taintedIds_visit hk hn, hs.taintedIds_iff]
    constructor
    · rintro (⟨m, hm, hid⟩ | ⟨hid, hT⟩)
      · exact ⟨m, (mem_sources_visit hk hn).mpr (Or.inl hm), hid⟩
      · exact ⟨n, (mem_sources_visit hk hn).mpr (Or.inr ⟨rfl, hT⟩), hid.symm⟩
    · rintro ⟨m, hm, hid⟩
      rcases (mem_sources_visit hk hn).mp hm with hm | ⟨rfl, hT⟩
      · exact Or.inl ⟨m, hm, hid⟩
      · exact Or.inr ⟨hid.symm, hT⟩

/-! ### Nothing within reach is forgotten -/

variable (c g e r) in
/-- What is not yet visited is queued, and so is what has to be visited again. -/
structure Complete : Prop where
  entry_seen : g.idOf e ∈ r.seen ∨ e ∈ r.queue
  successors_seen : ∀ n, ReflTransGen g.Leads e n → g.idOf n ∈ r.seen → ∀ t ∈ g.successors n,
    g.idOf t ∈ r.seen ∨ t ∈ r.queue
  tainted_found : ∀ n, ReflTransGen g.Leads e n → r.Tainted c g n → g.idOf n ∈ r.seen →
    n ∈ r.found.sources ∨ n ∈ r.revisit
  revisit_queued : ∀ n ∈ r.revisit, n ∈ r.queue

theorem complete_start : (start e).Complete c g e := by
  refine ⟨Or.inr List.mem_cons_self, fun m _ hm => ?_, fun m _ _ hm => ?_, fun m hm => ?_⟩
  · exact absurd hm Std.ExtTreeSet.not_mem_empty
  · exact absurd hm Std.ExtTreeSet.not_mem_empty
  · exact absurd hm Std.ExtTreeSet.not_mem_empty

/-- What is seen or queued stays so. -/
theorem seen_or_queued_visit (hk : r.Kept g) (hnext : r.next? g = some (n, rest))
    (h : g.idOf t ∈ r.seen ∨ t ∈ r.queue) :
    g.idOf t ∈ (r.visit c g n rest).seen ∨ t ∈ (r.visit c g n rest).queue := by
  obtain ⟨passed, hqueue, hpassed, hn⟩ := exists_of_next?_eq_some hnext
  rw [mem_seen_visit hk hn, queue_visit, List.mem_append]
  rcases h with hseen | hmem
  · exact Or.inl (Or.inr hseen)
  · rw [hqueue, List.mem_append, List.mem_cons] at hmem
    rcases hmem with hmem | rfl | hmem
    · exact Or.inl (Or.inr (settled_iff.mp (hpassed t hmem)).1)
    · exact Or.inl (Or.inl rfl)
    · exact Or.inr (Or.inl hmem)

/-- A visit queues the targets of its node, and it queues again what it marks too late. -/
theorem Complete.visit (hid : IdentifiesReach g e) (hc : r.Complete c g e) (hs : r.Sound c g e)
    (hk : r.Kept g) (hnext : r.next? g = some (n, rest)) :
    (r.visit c g n rest).Complete c g e := by
  obtain ⟨passed, hqueue, hpassed, hn⟩ := exists_of_next?_eq_some hnext
  have hreach : ReflTransGen g.Leads e n := hs.queue_reach n (by rw [hqueue]; simp)
  refine ⟨seen_or_queued_visit hk hnext hc.entry_seen, fun m hm hseen t ht => ?_,
    fun m hm hT hseen => ?_, fun m hm => ?_⟩
  · rcases (mem_seen_visit hk hn).mp hseen with hsame | hseen
    · rw [hid m n hm hreach hsame] at ht
      exact Or.inr (List.mem_append_right rest ht)
    · exact seen_or_queued_visit hk hnext (hc.successors_seen m hm hseen t ht)
  · rw [mem_sources_visit hk hn, mem_revisit_visit hk hn]
    by_cases hmn : m = n
    · -- the visited node itself is found, if it was tainted when the visit began
      subst hmn
      rcases (tainted_visit hk hn).mp hT with hT | ⟨hT, -⟩ <;> exact Or.inl (Or.inr ⟨rfl, hT⟩)
    · have hidne : g.idOf m ≠ g.idOf n := fun hsame => hmn (hid m n hm hreach hsame)
      have hold : g.idOf m ∈ r.seen := ((mem_seen_visit hk hn).mp hseen).resolve_left hidne
      by_cases hTold : r.Tainted c g m
      · rcases hc.tainted_found m hm hTold hold with hm | hm
        · exact Or.inl (Or.inl hm)
        · exact Or.inr (Or.inl ⟨hmn, hm⟩)
      · -- marked by this visit: late, since its identifier stands for no tainted node
        obtain ⟨hTn, hlead⟩ := ((tainted_visit hk hn).mp hT).resolve_left hTold
        refine Or.inr (Or.inr ⟨hTn, hlead, hTold, hold, fun hmem => hTold ?_, hidne⟩)
        obtain ⟨s, hsource, hsame⟩ := (hs.taintedIds_iff _).mp hmem
        obtain ⟨hsreach, hsT⟩ := hs.sources_tainted s hsource
        rwa [← hid s m hsreach hm hsame]
  · rw [queue_visit, List.mem_append]
    rcases (mem_revisit_visit hk hn).mp hm with ⟨hne, hdue⟩ | ⟨-, hlead, -⟩
    · have hmem := hc.revisit_queued m hdue
      rw [hqueue, List.mem_append, List.mem_cons] at hmem
      rcases hmem with hmem | rfl | hmem
      · exact absurd hdue (settled_iff.mp (hpassed m hmem)).2
      · exact absurd rfl hne
      · exact Or.inl hmem
    · exact Or.inr hlead

/-! ### When no visit is due -/

section Finished

variable (hc : r.Complete c g e) (hend : r.next? g = none)

include hc hend

theorem idOf_mem_seen_of_reach (hn : ReflTransGen g.Leads e n) : g.idOf n ∈ r.seen := by
  have hqueued : ∀ {m}, g.idOf m ∈ r.seen ∨ m ∈ r.queue → g.idOf m ∈ r.seen := fun h =>
    h.elim (fun hseen => hseen) fun hmem => (settled_of_next?_eq_none hend hmem).1
  induction hn with
  | refl => exact hqueued hc.entry_seen
  | tail hm hlead ih => exact hqueued (hc.successors_seen _ hm ih _ hlead)

theorem mem_sources_of_tainted (hn : ReflTransGen g.Leads e n) (hT : r.Tainted c g n) :
    n ∈ r.found.sources := by
  refine (hc.tainted_found n hn hT (idOf_mem_seen_of_reach hc hend hn)).resolve_right ?_
  exact fun hdue => (settled_of_next?_eq_none hend (hc.revisit_queued n hdue)).2 hdue

/-- **Taint is closed under edges**: the targets of a tainted node within reach are tainted. -/
theorem tainted_of_leads (hs : r.Sound c g e) (hn : ReflTransGen g.Leads e n)
    (hT : r.Tainted c g n) (hlead : g.Leads n t) : r.Tainted c g t :=
  hs.sources_spread n (mem_sources_of_tainted hc hend hn hT) t hlead

/-- Once no visit is due, everything behind a tainted node within reach is tainted. -/
theorem tainted_of_behind (hs : r.Sound c g e) (hn : ReflTransGen g.Leads e n)
    (hT : r.Tainted c g n) (hbehind : TransGen g.Leads n t) : r.Tainted c g t := by
  induction hbehind with
  | single hlead => exact tainted_of_leads hc hend hs hn hT hlead
  | tail hm hlead ih =>
    exact tainted_of_leads hc hend hs (hn.trans hm.to_reflTransGen) ih hlead

end Finished

/-! ### A whole run -/

/-- A run without budget ends with no visit due, and with both invariants. -/
theorem exists_propagate_eq (hmax : c.maxVisits = none) (he : g.contains e = true) :
    ∃ r : Run, propagate c g (some e) = r.found ∧ r.next? g = none ∧ r.Sound c g e ∧
      (IdentifiesReach g e → r.Complete c g e) := by
  obtain ⟨⟨hsound, hcomplete⟩, hend⟩ := go_finishes (c := c)
    (I := fun r => r.Sound c g e ∧ (IdentifiesReach g e → r.Complete c g e))
    (fun r n rest hk hnext ⟨hs, hc⟩ =>
      ⟨hs.visit hk hnext, fun hid => (hc hid).visit hid hs hk hnext⟩)
    (kept_start he) ⟨sound_start, fun _ => complete_start⟩ (work_le_visitLimit hmax _)
  exact ⟨_, propagate_eq_go he, hend, hsound, hcomplete⟩

end Run

section Propagate

variable {c : TaintConfig} {g : Graph} {e m : NodeId} (hmax : c.maxVisits = none)
  (he : g.contains e = true) (hid : IdentifiesReach g e)

include hmax he hid

/-- A run marks the nodes behind a tainted node within reach, except those that were tainted
already. -/
theorem mem_marked_propagate_iff : m ∈ (propagate c g (some e)).marked ↔ carries c g m = false ∧
    ∃ t, ReflTransGen g.Leads e t ∧ carries c g t = true ∧ TransGen g.Leads t m := by
  obtain ⟨r, hr, hend, hs, hcomplete⟩ := Run.exists_propagate_eq hmax he
  rw [hr]
  refine ⟨hs.marked_behind m, ?_⟩
  rintro ⟨hclean, t, ht, hcarries, hbehind⟩
  have hT := Run.tainted_of_behind (hcomplete hid) hend hs ht (Or.inl hcarries) hbehind
  refine hT.resolve_left ?_
  rw [hclean]
  exact Bool.false_ne_true

/-- The sources of a run are the tainted nodes within reach and the marked ones. -/
theorem mem_sources_propagate_iff : m ∈ (propagate c g (some e)).sources ↔
    ReflTransGen g.Leads e m ∧ carries c g m = true ∨ m ∈ (propagate c g (some e)).marked := by
  obtain ⟨r, hr, hend, hs, hcomplete⟩ := Run.exists_propagate_eq hmax he
  have hc := hcomplete hid
  rw [hr]
  constructor
  · intro hm
    obtain ⟨hreach, hT⟩ := hs.sources_tainted m hm
    exact hT.imp_left fun hcarries => ⟨hreach, hcarries⟩
  · rintro (⟨hreach, hcarries⟩ | hmarked)
    · exact Run.mem_sources_of_tainted hc hend hreach (Or.inl hcarries)
    · obtain ⟨-, t, ht, -, hbehind⟩ := hs.marked_behind m hmarked
      exact Run.mem_sources_of_tainted hc hend (ht.trans hbehind.to_reflTransGen) (Or.inr hmarked)

end Propagate

/-! ### Writing the marks -/

theorem carries_writeMarks (c : TaintConfig) (g : Graph) (found : Result) (n : NodeId) :
    carries c (writeMarks c g found) n = true ↔
      carries c g n = true ∨ n ∈ found.marked ∧ g.contains n = true := by
  rw [carries, carries, writeMarks, Graph.property_setProperties,
    ← Std.ExtTreeSet.mem_toList (t := found.marked)]
  split
  · rename_i h
    simp [h.1, h.2.1]
  · rename_i h
    simp only [and_true] at h
    simp only [h, or_false]

/-- The nodes that carry the taint text once the marks are written are those that were tainted for
the run. -/
theorem Run.Sound.carries_writeMarks_iff {c : TaintConfig} {g : Graph} {e n : NodeId} {r : Run}
    (hs : r.Sound c g e) :
    carries c (writeMarks c g r.found) n = true ↔ r.Tainted c g n := by
  rw [carries_writeMarks]
  refine or_congr_right ⟨And.left, fun hm => ⟨hm, ?_⟩⟩
  obtain ⟨-, t, -, -, hbehind⟩ := hs.marked_behind n hm
  obtain ⟨p, -, hlead⟩ := TransGen.tail'_iff.mp hbehind
  exact Graph.contains_of_mem_adjacent (d := .forward) hlead

/-- **Taint propagation is exact.** Let no two nodes within reach of the entry share an identifier.
A run without budget marks the clean nodes that lie one or more edges behind a tainted node within
reach, it finds these and the tainted nodes within reach, and the marks it writes make exactly the
marked nodes carry the taint text that did not carry it before. -/
theorem analyze_exact (c : TaintConfig) (g : Graph) (e : NodeId) (hmax : c.maxVisits = none)
    (he : g.contains e = true) (hid : IdentifiesReach g e) :
    (∀ m, m ∈ (analyze c g (some e)).1.marked ↔ carries c g m = false ∧
      ∃ t, ReflTransGen g.Leads e t ∧ carries c g t = true ∧ TransGen g.Leads t m) ∧
    (∀ m, m ∈ (analyze c g (some e)).1.sources ↔
      ReflTransGen g.Leads e m ∧ carries c g m = true ∨ m ∈ (analyze c g (some e)).1.marked) ∧
    (∀ m, carries c (analyze c g (some e)).2 m = true ↔
      carries c g m = true ∨ m ∈ (analyze c g (some e)).1.marked) := by
  obtain ⟨r, hr, -, hs, -⟩ := Run.exists_propagate_eq (c := c) hmax he
  refine ⟨fun m => mem_marked_propagate_iff hmax he hid,
    fun m => mem_sources_propagate_iff hmax he hid, fun m => ?_⟩
  rw [analyze, hr]
  exact hs.carries_writeMarks_iff

/-- In the complete graph on three nodes, of which the last is tainted, the other two are marked
only after they were visited. -/
theorem analyze_exact_complete :
    let c : TaintConfig := {}
    let g := (Graph.addShape ∅ .complete 3 "n").setProperty ⟨2⟩ "tainted" "true"
    c.maxVisits = none ∧ g.contains ⟨0⟩ = true ∧ IdentifiesReach g ⟨0⟩ ∧
      ⟨0⟩ ∈ (analyze c g (some ⟨0⟩)).1.marked ∧ ⟨1⟩ ∈ (analyze c g (some ⟨0⟩)).1.sources := by
  intro c g
  have hid : IdentifiesReach g ⟨0⟩ := identifiesReach_of_nodup (by decide) (by decide)
  obtain ⟨hmarked, hsources, -⟩ := analyze_exact c g ⟨0⟩ rfl (by decide) hid
  have hlead : ∀ n : NodeId, n ∈ g.successors ⟨2⟩ → carries c g n = false →
      n ∈ (analyze c g (some ⟨0⟩)).1.marked := fun n hn hclean =>
    (hmarked n).mpr ⟨hclean, ⟨2⟩, ReflTransGen.single (by decide), by decide, TransGen.single hn⟩
  refine ⟨rfl, by decide, hid, hlead ⟨0⟩ (by decide) (by decide), ?_⟩
  exact (hsources ⟨1⟩).mpr (Or.inr (hlead ⟨1⟩ (by decide) (by decide)))

end ProgramGraph.Taint
