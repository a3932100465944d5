import Mathlib.Data.Finset.Card
import Mathlib.Data.List.TakeWhile
import ProgramGraph.Proofs.Graph.Adjacency
import ProgramGraph.Taint.Propagation

/-!
# Visits and runs of taint propagation

`Kept` is what every run keeps: only nodes are queued, an identifier found tainted was visited, and
a node due for a second visit is marked. It follows that the node of a visit spreads its taint
exactly if it is tainted itself, although the program asks for its identifier
(`mem_taintedIds_arrive_self`). The section on visits states on that basis what a visit does to each
part of the run, once and for all.

A run without budget comes to an end within its limit: every visit uses up an identifier that was
not seen, or a node that may still become due (`work_visit_lt`). `go_induction` is the induction
over the visits of a run that rests on this, and `go_finishes` its form for what visits keep.
`go_keeps` is that form for runs under any limit, which may be truncated.
-/

namespace ProgramGraph.Taint.Run

variable {c : TaintConfig} {g : Graph} {r : Run} {n m t : NodeId} {rest : List NodeId}

variable (c g r n) in
/-- The node carries the taint text, or the run has marked it. -/
def Tainted : Prop :=
  carries c g n = true ∨ n ∈ r.found.marked

private theorem tainted_iff :
    (carries c g n || r.found.marked.contains n) = true ↔ r.Tainted c g n := by
  rw [Bool.or_eq_true, ← Std.ExtTreeSet.mem_iff_contains, Tainted]

private theorem mem_insert_if {α : Type} [Ord α] [Std.TransOrd α] [Std.LawfulEqOrd α]
    {s : Std.ExtTreeSet α} {a x : α} {b : Bool} {p : Prop} (hb : b = true ↔ p) :
    x ∈ (if b then s.insert a else s) ↔ x ∈ s ∨ x = a ∧ p := by
  rw [← hb]
  cases b with
  | false => simp
  | true =>
    rw [if_pos rfl, Std.ExtTreeSet.mem_insert, Std.LawfulEqOrd.compare_eq_iff_eq, or_comm]
    simp [eq_comm]

/-! ### The next node -/

/-- A node is passed over if its identifier was seen and it is not due for a second visit. -/
theorem settled_iff : r.settled g n = true ↔ g.idOf n ∈ r.seen ∧ n ∉ r.revisit := by
  rw [settled, Bool.and_eq_true, Bool.not_eq_true', ← Bool.not_eq_true,
    Std.ExtTreeSet.contains_iff_mem, Std.ExtTreeSet.contains_iff_mem]

theorem settled_of_next?_eq_none (h : r.next? g = none) (hm : m ∈ r.queue) :
    g.idOf m ∈ r.seen ∧ m ∉ r.revisit := by
  have hnil : r.queue.dropWhile (r.settled g) = [] := by
    unfold next? at h
    split at h
    · assumption
    · cases h
  exact settled_iff.mp (List.dropWhile_eq_nil_iff.mp hnil m hm)

/-- Before the next node stand settled nodes only, and it is not settled itself. -/
theorem exists_of_next?_eq_some (h : r.next? g = some (n, rest)) : ∃ passed : List NodeId,
    r.queue = passed ++ n :: rest ∧ (∀ m ∈ passed, r.settled g m = true) ∧
      ¬ r.settled g n = true := by
  have hdrop : r.queue.dropWhile (r.settled g) = n :: rest := by
    unfold next? at h
    split at h
    · cases h
    · rename_i heq
      cases h
      exact heq
  refine ⟨r.queue.takeWhile (r.settled g), ?_, ?_, ?_⟩
  · rw [← hdrop, List.takeWhile_append_dropWhile]
  · intro m hm
    exact List.mem_takeWhile_imp hm
  · have hhead := List.head?_dropWhile_not (r.settled g) r.queue
    rw [hdrop] at hhead
    simpa using hhead

/-! ### Marking -/

section Mark

variable (c g) in
/-- Marks nodes one after the other. -/
def markAll (r : Run) (ts : List NodeId) : Run :=
  ts.foldl (mark c g) r

theorem frame_mark : (r.mark c g t).seen = r.seen ∧
    (r.mark c g t).found.taintedIds = r.found.taintedIds ∧
    (r.mark c g t).found.sources = r.found.sources := by
  unfold mark
  split <;> exact ⟨rfl, rfl, rfl⟩

theorem mem_marked_mark :
    m ∈ (r.mark c g t).found.marked ↔ m ∈ r.found.marked ∨ m = t ∧ carries c g t = false := by
  unfold mark
  split
  · rename_i h
    rw [Bool.or_eq_true, ← Std.ExtTreeSet.mem_iff_contains] at h
    constructor
    · exact Or.inl
    · rintro (hm | ⟨rfl, hclean⟩)
      · exact hm
      · rw [hclean] at h
        exact h.resolve_left (by simp)
  · rename_i h
    rw [Bool.or_eq_true, not_or] at h
    rw [Std.ExtTreeSet.mem_insert, Std.LawfulEqOrd.compare_eq_iff_eq, or_comm]
    simp [h.1, eq_comm]

/-- A node becomes due when it is marked late. -/
theorem mem_revisit_mark : m ∈ (r.mark c g t).revisit ↔ m ∈ r.revisit ∨
    m = t ∧ ¬ r.Tainted c g t ∧ g.idOf t ∈ r.seen ∧ g.idOf t ∉ r.found.taintedIds := by
  have hlate : (r.seen.contains (g.idOf t) && !r.found.taintedIds.contains (g.idOf t)) = true ↔
      g.idOf t ∈ r.seen ∧ g.idOf t ∉ r.found.taintedIds := by
    rw [Bool.and_eq_true, Bool.not_eq_true', ← Bool.not_eq_true,
      Std.ExtTreeSet.contains_iff_mem, Std.ExtTreeSet.contains_iff_mem]
  unfold mark
  split
  · rename_i h
    simp [tainted_iff.mp h]
  · rename_i h
    have hclean : ¬ r.Tainted c g t := fun hT => h (tainted_iff.mpr hT)
    dsimp only
    rw [mem_insert_if hlate]
    simp only [hclean, not_false_eq_true, true_and]

theorem frame_markAll (ts : List NodeId) : (r.markAll c g ts).seen = r.seen ∧
    (r.markAll c g ts).found.taintedIds = r.found.taintedIds ∧
    (r.markAll c g ts).found.sources = r.found.sources := by
  induction ts generalizing r with
  | nil => exact ⟨rfl, rfl, rfl⟩
  | cons t ts ih =>
    obtain ⟨h₁, h₂, h₃⟩ := ih (r := r.mark c g t)
    obtain ⟨k₁, k₂, k₃⟩ := frame_mark (c := c) (g := g) (r := r) (t := t)
    exact ⟨h₁.trans k₁, h₂.trans k₂, h₃.trans k₃⟩

/-- The nodes of the list that do not carry the text are marked. -/
theorem mem_marked_markAll (ts : List NodeId) : m ∈ (r.markAll c g ts).found.marked ↔
    m ∈ r.found.marked ∨ m ∈ ts ∧ carries c g m = false := by
  induction ts generalizing r with
  | nil => simp [markAll]
  | cons t ts ih =>
    have hcons : r.markAll c g (t :: ts) = (r.mark c g t).markAll c g ts := rfl
    rw [hcons, ih, mem_marked_mark, List.mem_cons]
    constructor
    · rintro ((hm | ⟨rfl, hclean⟩) | ⟨hm, hclean⟩)
      · exact Or.inl hm
      · exact Or.inr ⟨Or.inl rfl, hclean⟩
      · exact Or.inr ⟨Or.inr hm, hclean⟩
    · rintro (hm | ⟨rfl | hm, hclean⟩)
      · exact Or.inl (Or.inl hm)
      · exact Or.inl (Or.inr ⟨rfl, hclean⟩)
      · exact Or.inr ⟨hm, hclean⟩

/-- A node becomes due for a second visit if its identifier was seen, but not found tainted, before
the node was marked. -/
theorem mem_revisit_markAll (ts : List NodeId) : m ∈ (r.markAll c g ts).revisit ↔
    m ∈ r.revisit ∨ m ∈ ts ∧ ¬ r.Tainted c g m ∧ g.idOf m ∈ r.seen ∧
      g.idOf m ∉ r.found.taintedIds := by
  induction ts generalizing r with
  | nil => simp [markAll]
  | cons t ts ih =>
    have hcons : r.markAll c g (t :: ts) = (r.mark c g t).markAll c g ts := rfl
    obtain ⟨hseen, hids, -⟩ := frame_mark (c := c) (g := g) (r := r) (t := t)
    rw [hcons, ih, mem_revisit_mark, hseen, hids, List.mem_cons]
    -- a node that is marked twice becomes due the first time
    have htainted : (r.mark c g t).Tainted c g m ↔ r.Tainted c g m ∨ m = t := by
      unfold Tainted
      rw [mem_marked_mark]
      by_cases hmt : m = t
      · subst hmt
        cases carries c g m <;> simp
      · simp [hmt]
    rw [htainted]
    by_cases hmt : m = t
    · subst hmt
      simp
    · simp [hmt]

end Mark

/-! ### What a run keeps -/

variable (g r) in
/-- Only nodes are queued, an identifier that was found tainted was seen, and a node that is due for
a second visit is marked. -/
structure Kept : Prop where
  queue_contains : ∀ m ∈ r.queue, g.contains m = true
  taintedIds_seen : ∀ id ∈ r.found.taintedIds, id ∈ r.seen
  revisit_marked : ∀ m ∈ r.revisit, m ∈ r.found.marked

/-! ### Visits -/

section Visit

theorem mem_seen_arrive {id : String} :
    id ∈ (r.arrive c g n).seen ↔ id = g.idOf n ∨ id ∈ r.seen := by
  unfold arrive
  rw [Std.ExtTreeSet.mem_insert, Std.LawfulEqOrd.compare_eq_iff_eq, eq_comm]

theorem mem_revisit_arrive : m ∈ (r.arrive c g n).revisit ↔ m ≠ n ∧ m ∈ r.revisit := by
  unfold arrive
  rw [Std.ExtTreeSet.mem_erase, Ne, Std.LawfulEqOrd.compare_eq_iff_eq, eq_comm]

@[simp]
theorem marked_arrive : (r.arrive c g n).found.marked = r.found.marked := rfl

theorem mem_taintedIds_arrive {id : String} : id ∈ (r.arrive c g n).found.taintedIds ↔
    id ∈ r.found.taintedIds ∨ id = g.idOf n ∧ r.Tainted c g n := by
  unfold arrive
  exact mem_insert_if tainted_iff

theorem mem_sources_arrive : m ∈ (r.arrive c g n).found.sources ↔
    m ∈ r.found.sources ∨ m = n ∧ r.Tainted c g n := by
  unfold arrive
  exact mem_insert_if tainted_iff

/-- **A node that is visited spreads taint exactly if it is tainted itself.** The program asks
whether its identifier was found tainted; but on a first visit only the node itself can have brought
that about, and a second visit is made to marked nodes only. -/
theorem mem_taintedIds_arrive_self (hk : r.Kept g) (hn : ¬ r.settled g n = true) :
    g.idOf n ∈ (r.arrive c g n).found.taintedIds ↔ r.Tainted c g n := by
  rw [mem_taintedIds_arrive]
  constructor
  · rintro (hid | ⟨-, h⟩)
    · by_contra hclean
      refine hn (settled_iff.mpr ⟨hk.taintedIds_seen _ hid, fun hdue => hclean ?_⟩)
      exact Or.inr (hk.revisit_marked n hdue)
    · exact h
  · exact fun h => Or.inr ⟨rfl, h⟩

@[simp]
theorem queue_visit : (r.visit c g n rest).queue = rest ++ g.successors n := rfl

variable (hk : r.Kept g) (hn : ¬ r.settled g n = true)

include hk hn

/-- The visit of a tainted node marks its targets, that of another node does not. -/
private theorem visit_eq : r.visit c g n rest =
    { r.arrive c g n with queue := rest ++ g.successors n } ∧ ¬ r.Tainted c g n ∨
    r.visit c g n rest =
      { (r.arrive c g n).markAll c g (g.successors n) with queue := rest ++ g.successors n } ∧
      r.Tainted c g n := by
  have hself := mem_taintedIds_arrive_self (c := c) hk hn
  rw [Std.ExtTreeSet.mem_iff_contains] at hself
  unfold visit
  dsimp only
  split
  · rename_i h
    exact Or.inr ⟨rfl, hself.mp h⟩
  · rename_i h
    exact Or.inl ⟨rfl, fun hT => h (hself.mpr hT)⟩

theorem mem_seen_visit {id : String} :
    id ∈ (r.visit c g n rest).seen ↔ id = g.idOf n ∨ id ∈ r.seen := by
  rw [← mem_seen_arrive (c := c)]
  obtain ⟨heq, -⟩ | ⟨heq, -⟩ := visit_eq (c := c) hk hn
  · rw [heq]
  · rw [heq]
    dsimp only
    rw [(frame_markAll (g.successors n)).1]

theorem mem_taintedIds_visit {id : String} : id ∈ (r.visit c g n rest).found.taintedIds ↔
    id ∈ r.found.taintedIds ∨ id = g.idOf n ∧ r.Tainted c g n := by
  rw [← mem_taintedIds_arrive]
  obtain ⟨heq, -⟩ | ⟨heq, -⟩ := visit_eq (c := c) hk hn
  · rw [heq]
  · rw [heq]
    dsimp only
    rw [(frame_markAll (g.successors n)).2.1]

theorem mem_sources_visit : m ∈ (r.visit c g n rest).found.sources ↔
    m ∈ r.found.sources ∨ m = n ∧ r.Tainted c g n := by
  rw [← mem_sources_arrive]
  obtain ⟨heq, -⟩ | ⟨heq, -⟩ := visit_eq (c := c) hk hn
  · rw [heq]
  · rw [heq]
    dsimp only
    rw [(frame_markAll (g.successors n)).2.2]

/-- Visiting a tainted node marks those of its targets that do not carry the text. -/
theorem mem_marked_visit : m ∈ (r.visit c g n rest).found.marked ↔
    m ∈ r.found.marked ∨ r.Tainted c g n ∧ m ∈ g.successors n ∧ carries c g m = false := by
  obtain ⟨heq, hT⟩ | ⟨heq, hT⟩ := visit_eq (c := c) hk hn
  · rw [heq]
    simp only [marked_arrive, hT, false_and, or_false]
  · rw [heq]
    dsimp only
    rw [mem_marked_markAll, marked_arrive]
    simp only [hT, true_and]

/-- A second visit is due to the nodes that were due, except the one visited, and to those marked
late: under an identifier that was seen before, by another node, and not found tainted. -/
theorem mem_revisit_visit : m ∈ (r.visit c g n rest).revisit ↔ m ≠ n ∧ m ∈ r.revisit ∨
    r.Tainted c g n ∧ m ∈ g.successors n ∧ ¬ r.Tainted c g m ∧ g.idOf m ∈ r.seen ∧
      g.idOf m ∉ r.found.taintedIds ∧ g.idOf m ≠ g.idOf n := by
  obtain ⟨heq, hT⟩ | ⟨heq, hT⟩ := visit_eq (c := c) hk hn
  · rw [heq]
    simp only [mem_revisit_arrive, hT, false_and, or_false]
  · have hmarked : (r.arrive c g n).Tainted c g m ↔ r.Tainted c g m := Iff.rfl
    rw [heq]
    dsimp only
    rw [mem_revisit_markAll, mem_revisit_arrive, hmarked, mem_seen_arrive, mem_taintedIds_arrive]
    simp only [hT, and_true, true_and, not_or]
    tauto

/-- What is tainted after a visit. -/
theorem tainted_visit : (r.visit c g n rest).Tainted c g m ↔
    r.Tainted c g m ∨ r.Tainted c g n ∧ m ∈ g.successors n := by
  rw [Tainted, mem_marked_visit hk hn, Tainted.eq_def c g r m]
  cases carries c g m <;> simp

end Visit

/-- A visit keeps what a run keeps. -/
theorem Kept.visit (hk : r.Kept g) (hnext : r.next? g = some (n, rest)) :
    (r.visit c g n rest).Kept g := by
  obtain ⟨passed, hqueue, -, hn⟩ := exists_of_next?_eq_some hnext
  refine ⟨fun m hm => ?_, fun id hid => ?_, fun m hm => ?_⟩
  · rw [queue_visit, List.mem_append] at hm
    rcases hm with hm | hm
    · exact hk.queue_contains m (by rw [hqueue]; simp [hm])
    · exact Graph.contains_of_mem_adjacent (d := .forward) hm
  · rw [mem_seen_visit hk hn]
    rcases (mem_taintedIds_visit hk hn).mp hid with hid | ⟨hid, -⟩
    · exact Or.inr (hk.taintedIds_seen id hid)
    · exact Or.inl hid
  · rw [mem_marked_visit hk hn]
    rcases (mem_revisit_visit hk hn).mp hm with ⟨-, hm⟩ | ⟨hT, hsucc, hclean, -⟩
    · exact Or.inl (hk.revisit_marked m hm)
    · exact Or.inr ⟨hT, hsucc, Bool.eq_false_iff.mpr fun h => hclean (Or.inl h)⟩

/-! ### Runs end -/

section Work

variable (g r)

/-- The identifiers that were not seen. -/
def unseen : Finset String :=
  (g.nodeIds.map g.idOf).toFinset.filter (· ∉ r.seen)

/-- The nodes that are due for a second visit, or may still become so. -/
def pending : Finset NodeId :=
  g.nodeIds.toFinset.filter fun m => m ∉ r.found.marked ∨ m ∈ r.revisit

/-- As many visits can be made at most. -/
def work : Nat :=
  (r.unseen g).card + (r.pending g).card

/-- At most two visits are left for each node. -/
theorem work_le : r.work g ≤ 2 * g.nodeCount := by
  have hcount : g.nodeIds.length = g.nodeCount := by simp [Graph.nodeIds]
  have hunseen : (r.unseen g).card ≤ g.nodeCount :=
    calc (r.unseen g).card ≤ (g.nodeIds.map g.idOf).toFinset.card := Finset.card_filter_le _ _
      _ ≤ (g.nodeIds.map g.idOf).length := List.toFinset_card_le _
      _ = g.nodeCount := by rw [List.length_map, hcount]
  have hpending : (r.pending g).card ≤ g.nodeCount :=
    calc (r.pending g).card ≤ g.nodeIds.toFinset.card := Finset.card_filter_le _ _
      _ ≤ g.nodeIds.length := List.toFinset_card_le _
      _ = g.nodeCount := hcount
  unfold work
  omega

end Work

/-- **Every visit uses up work**: a first visit an identifier, a second one a node that was due. -/
theorem work_visit_lt (hk : r.Kept g) (hnext : r.next? g = some (n, rest)) :
    (r.visit c g n rest).work g < r.work g := by
  obtain ⟨passed, hqueue, -, hn⟩ := exists_of_next?_eq_some hnext
  have hnode : n ∈ g.nodeIds :=
    Graph.mem_nodeIds.mpr (hk.queue_contains n (by rw [hqueue]; simp))
  have hunseen : (r.visit c g n rest).unseen g ⊆ r.unseen g := by
    refine Finset.monotone_filter_right _ fun id _ hid hseen => hid ?_
    exact (mem_seen_visit hk hn).mpr (Or.inr hseen)
  have hpending : (r.visit c g n rest).pending g ⊆ r.pending g := by
    refine Finset.monotone_filter_right _ fun m _ hm => ?_
    rcases hm with hm | hm
    · exact Or.inl fun hmarked => hm ((mem_marked_visit hk hn).mpr (Or.inl hmarked))
    · rcases (mem_revisit_visit hk hn).mp hm with ⟨-, hm⟩ | ⟨-, -, hclean, -⟩
      · exact Or.inr hm
      · exact Or.inl fun hmarked => hclean (Or.inr hmarked)
  unfold work
  by_cases hseen : g.idOf n ∈ r.seen
  · -- a second visit: the node was due, and it is marked, so it will not become due again
    have hdue : n ∈ r.revisit := by
      by_contra hdue
      exact hn (settled_iff.mpr ⟨hseen, hdue⟩)
    have hmarked := hk.revisit_marked n hdue
    have hlost : n ∉ (r.visit c g n rest).pending g := by
      intro hpend
      rcases (Finset.mem_filter.mp hpend).2 with hout | hagain
      · exact hout ((mem_marked_visit hk hn).mpr (Or.inl hmarked))
      · rcases (mem_revisit_visit hk hn).mp hagain with ⟨hne, -⟩ | ⟨-, -, hclean, -⟩
        · exact hne rfl
        · exact hclean (Or.inr hmarked)
    have hhad : n ∈ r.pending g :=
      Finset.mem_filter.mpr ⟨List.mem_toFinset.mpr hnode, Or.inr hdue⟩
    have hlt := Finset.card_lt_card ((Finset.ssubset_iff_of_subset hpending).mpr ⟨n, hhad, hlost⟩)
    have hle := Finset.card_le_card hunseen
    omega
  · -- a first visit: the identifier of the node is seen from now on
    have hlost : g.idOf n ∉ (r.visit c g n rest).unseen g := fun hid =>
      (Finset.mem_filter.mp hid).2 ((mem_seen_visit hk hn).mpr (Or.inl rfl))
    have hhad : g.idOf n ∈ r.unseen g :=
      Finset.mem_filter.mpr ⟨List.mem_toFinset.mpr (List.mem_map_of_mem hnode), hseen⟩
    have hlt := Finset.card_lt_card ((Finset.ssubset_iff_of_subset hunseen).mpr ⟨_, hhad, hlost⟩)
    have hle := Finset.card_le_card hpending
    omega

theorem go_of_next?_eq_none (h : r.next? g = none) (left : Nat) : go c g left r = r := by
  cases left <;> simp [go, h]

theorem go_succ_of_next?_eq_some (h : r.next? g = some (n, rest)) (left : Nat) :
    go c g (left + 1) r = go c g left (r.visit c g n rest) := by
  simp [go, h]

/-- What visits keep, and the flag of a truncated run too, holds at the end of every run, whatever
its limit. -/
theorem go_keeps {I : Run → Prop}
    (hvisit : ∀ r n rest, r.Kept g → r.next? g = some (n, rest) → I r → I (r.visit c g n rest))
    (hstop : ∀ r, I r → I { r with found := { r.found with truncated := true } })
    (hk : r.Kept g) (hI : I r) (left : Nat) : I (go c g left r) := by
  induction left generalizing r with
  | zero =>
    unfold go
    split
    · exact hI
    · exact hstop r hI
  | succ left ih =>
    cases hnext : r.next? g with
    | none =>
      rw [go_of_next?_eq_none hnext]
      exact hI
    | some next =>
      obtain ⟨n, rest⟩ := next
      rw [go_succ_of_next?_eq_some hnext]
      exact ih (hk.visit hnext) (hvisit r n rest hk hnext hI)

/-- **Induction over a run whose limit covers its work.** Such a run never comes to the limit:
either no visit is due, or one is made and what is left of the limit covers the work that remains.
-/
theorem go_induction {motive : Nat → Run → Prop}
    (hend : ∀ left r, r.next? g = none → motive left r)
    (hvisit : ∀ left r n rest, r.Kept g → r.next? g = some (n, rest) →
      motive left (r.visit c g n rest) → motive (left + 1) r)
    {left : Nat} (hk : r.Kept g) (hwork : r.work g ≤ left) : motive left r := by
  induction left generalizing r with
  | zero =>
    cases hnext : r.next? g with
    | none => exact hend 0 r hnext
    | some next =>
      have hlt := work_visit_lt (c := c) hk hnext
      omega
  | succ left ih =>
    cases hnext : r.next? g with
    | none => exact hend (left + 1) r hnext
    | some next =>
      obtain ⟨n, rest⟩ := next
      have hlt := work_visit_lt (c := c) hk hnext
      exact hvisit left r n rest hk hnext (ih (hk.visit hnext) (by omega))

/-- What visits keep holds of the last state of such a run, and no visit is due there. -/
theorem go_finishes {I : Run → Prop}
    (hvisit : ∀ r n rest, r.Kept g → r.next? g = some (n, rest) → I r → I (r.visit c g n rest))
    {left : Nat} (hk : r.Kept g) (hI : I r) (hwork : r.work g ≤ left) :
    I (go c g left r) ∧ (go c g left r).next? g = none := by
  refine go_induction (c := c)
    (motive := fun left r => I r → I (go c g left r) ∧ (go c g left r).next? g = none)
    ?_ ?_ hk hwork hI
  · intro left r hnext hI
    rw [go_of_next?_eq_none hnext]
    exact ⟨hI, hnext⟩
  · intro left r n rest hk hnext ih hI
    rw [go_succ_of_next?_eq_some hnext]
    exact ih (hvisit r n rest hk hnext hI)

/-! ### The start of a run -/

/-- Only the entry is queued. -/
def start (e : NodeId) : Run :=
  { queue := [e], found := { entry := some e } }

theorem kept_start {e : NodeId} (he : g.contains e = true) : (start e).Kept g := by
  refine ⟨fun m hm => ?_, fun id hid => ?_, fun m hm => ?_⟩
  · rw [List.mem_singleton.mp hm]
    exact he
  · exact absurd hid Std.ExtTreeSet.not_mem_empty
  · exact absurd hm Std.ExtTreeSet.not_mem_empty

/-- Without a budget the limit covers the work. -/
theorem work_le_visitLimit (hmax : c.maxVisits = none) (r : Run) : r.work g ≤ visitLimit c g := by
  rw [visitLimit, hmax]
  exact r.work_le g

theorem propagate_eq_go {e : NodeId} (he : g.contains e = true) :
    propagate c g (some e) = (go c g (visitLimit c g) (start e)).found := by
  have hresolve : g.resolve (some e) = some e := Graph.resolve_eq_some_iff.mpr ⟨rfl, he⟩
  rw [propagate, hresolve]
  rfl

end ProgramGraph.Taint.Run
