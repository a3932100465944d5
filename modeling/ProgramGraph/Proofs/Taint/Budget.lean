import Mathlib.Data.Set.Card
import ProgramGraph.Proofs.FiniteSet
import ProgramGraph.Proofs.Taint.Soundness

/-!
# Visits, and what a budget of visits cuts off

Every target of a visited node is queued, so the queue grows with each visit. That a run without
budget empties it all the same is said of a loop that takes one node after the other and counts
nothing (`Run.Pops`): `Run.pops_go`.

How many visits are made is a matter of accounts. A first visit sees a new identifier, a second one
uses up a node that was due, and a node becomes due only when it is marked; so visits made and
visits due are never more than identifiers seen and nodes marked (`Run.Paid`).

A run under a budget is the same run, stopped (`IsCut`). It makes the same visits in the same order
as long as the budget lasts, so it has made as many as the budget and the whole run allow for, it is
truncated exactly if the whole run makes more, and what it has found the whole run finds too.
-/

namespace ProgramGraph.Taint

open Relation

/-- The identifiers of the nodes within reach of the entry. -/
def reachedIds (g : Graph) (entry : Option NodeId) : Set String :=
  {id | ∃ e m, g.resolve entry = some e ∧ ReflTransGen g.Leads e m ∧ g.idOf m = id}

/-- There are finitely many, and a set of some of them is no larger. -/
theorem size_le_ncard_reachedIds {g : Graph} {entry : Option NodeId} {ids : NameSet}
    (h : ∀ id ∈ ids, id ∈ reachedIds g entry) : ids.size ≤ (reachedIds g entry).ncard := by
  have hfinite : (reachedIds g entry).Finite := by
    refine (g.nodeIds.map g.idOf).finite_toSet.subset ?_
    rintro id ⟨e, m, he, hreach, rfl⟩
    refine List.mem_map_of_mem (Graph.mem_nodeIds.mpr ?_)
    exact Graph.contains_of_reaches (Graph.resolve_eq_some_iff.mp he).2 hreach
  rw [Set.ncard_eq_toFinset_card _ hfinite, ← Finset.length_toList]
  refine FiniteSet.size_le_length fun id hid => ?_
  rw [Finset.mem_toList, Set.Finite.mem_toFinset]
  exact h id hid

/-! ### Taking nodes from the queue -/

namespace Run

variable {c : TaintConfig} {g : Graph} {r : Run} {n t : NodeId} {rest : List NodeId} {left : Nat}

variable (c g r) in
/-- Takes the next node from the queue, and visits it unless it is settled. -/
def pop? : Option Run :=
  match r.queue with
  | [] => none
  | n :: rest => some (if r.settled g n then { r with queue := rest } else r.visit c g n rest)

variable (c g) in
/-- Taking one node from the queue leads from the first state of a run to the second. -/
def Pops (r r' : Run) : Prop :=
  r.pop? c g = some r'

theorem markAll_queue (queue ts : List NodeId) :
    Run.markAll c g { r with queue } ts = { r.markAll c g ts with queue } := by
  induction ts generalizing r with
  | nil => rfl
  | cons t ts ih =>
    have hmark : Run.mark c g { r with queue } t = { r.mark c g t with queue } := by
      unfold mark
      dsimp only
      split <;> rfl
    have hcons : ∀ r : Run, r.markAll c g (t :: ts) = (r.mark c g t).markAll c g ts := fun _ => rfl
    rw [hcons, hcons, hmark, ih]

/-- A visit does not look at the queue. -/
theorem visit_queue (queue : List NodeId) :
    Run.visit c g { r with queue } n rest = r.visit c g n rest := by
  have harrive : Run.arrive c g { r with queue } n = { r.arrive c g n with queue } := rfl
  have hmarks := markAll_queue (c := c) (g := g) (r := r.arrive c g n) queue (g.successors n)
  unfold markAll at hmarks
  unfold visit
  dsimp only
  rw [harrive, hmarks]
  split <;> rfl

/-- Settled nodes are taken from the queue and nothing else happens. -/
theorem pops_settled {passed : List NodeId} (hqueue : r.queue = passed ++ rest)
    (hpassed : ∀ m ∈ passed, r.settled g m = true) :
    ReflTransGen (Pops c g) r { r with queue := rest } := by
  induction passed generalizing r with
  | nil =>
    rw [List.nil_append] at hqueue
    rw [← hqueue]
  | cons m passed ih =>
    have hpop : Pops c g r { r with queue := passed ++ rest } := by
      rw [Pops, pop?, hqueue]
      simp [hpassed m List.mem_cons_self]
    exact .head hpop (ih rfl fun p hp => hpassed p (List.mem_cons_of_mem m hp))

/-- **The queue runs empty**, if the limit covers the work; what is found then is what the run with
that limit finds. -/
theorem pops_go (hk : r.Kept g) (hwork : r.work g ≤ left) :
    ReflTransGen (Pops c g) r { go c g left r with queue := [] } := by
  refine go_induction (c := c)
    (motive := fun left r => ReflTransGen (Pops c g) r { go c g left r with queue := [] })
    (fun left r hnext => ?_) (fun left r n rest hk hnext ih => ?_) hk hwork
  · rw [go_of_next?_eq_none hnext]
    exact pops_settled (List.append_nil r.queue).symm fun m hm =>
      settled_iff.mpr (settled_of_next?_eq_none hnext hm)
  · obtain ⟨passed, hqueue, hpassed, hn⟩ := exists_of_next?_eq_some hnext
    have hpop : Pops c g { r with queue := n :: rest } (r.visit c g n rest) := by
      rw [Pops, pop?]
      exact congrArg some ((if_neg hn).trans (visit_queue (n :: rest)))
    rw [go_succ_of_next?_eq_some hnext]
    exact (pops_settled hqueue hpassed).trans (.head hpop ih)

/-! ### Counting visits -/

/-- Marks do not count as visits and do not stop a run. -/
theorem visited_markAll (ts : List NodeId) :
    (r.markAll c g ts).found.visited = r.found.visited ∧
      (r.markAll c g ts).found.truncated = r.found.truncated := by
  induction ts generalizing r with
  | nil => exact ⟨rfl, rfl⟩
  | cons t ts ih =>
    have hmark : (r.mark c g t).found.visited = r.found.visited ∧
        (r.mark c g t).found.truncated = r.found.truncated := by
      unfold mark
      split <;> exact ⟨rfl, rfl⟩
    exact ⟨ih.1.trans hmark.1, ih.2.trans hmark.2⟩

theorem visited_visit : (r.visit c g n rest).found.visited = r.found.visited + 1 ∧
    (r.visit c g n rest).found.truncated = r.found.truncated := by
  unfold visit
  dsimp only
  split
  · exact visited_markAll (r := r.arrive c g n) (g.successors n)
  · exact ⟨rfl, rfl⟩

variable (r) in
/-- Visits made and visits due are covered by identifiers seen and nodes marked. -/
def Paid : Prop :=
  r.found.visited + r.revisit.size ≤ r.seen.size + r.found.marked.size

/-- No more nodes become due than are marked. -/
theorem size_revisit_mark_le : (r.mark c g t).revisit.size + r.found.marked.size ≤
    r.revisit.size + (r.mark c g t).found.marked.size := by
  unfold mark
  split
  · exact le_rfl
  · rename_i h
    rw [Bool.or_eq_true, not_or] at h
    have hmarked : (r.found.marked.insert t).size = r.found.marked.size + 1 := by
      rw [Std.ExtTreeSet.size_insert, if_neg h.2]
    have hdue : ∀ late : Bool, (if late then r.revisit.insert t else r.revisit).size ≤
        r.revisit.size + 1 := by
      intro late
      cases late with
      | false => exact Nat.le_succ _
      | true => exact Std.ExtTreeSet.size_insert_le
    dsimp only
    rw [hmarked]
    have := hdue (r.seen.contains (g.idOf t) && !r.found.taintedIds.contains (g.idOf t))
    omega

/-- Each node that becomes due for a second visit is newly marked. -/
theorem size_revisit_markAll_le (ts : List NodeId) :
    (r.markAll c g ts).revisit.size + r.found.marked.size ≤
      r.revisit.size + (r.markAll c g ts).found.marked.size := by
  induction ts generalizing r with
  | nil => exact le_rfl
  | cons t ts ih =>
    have hfirst := size_revisit_mark_le (c := c) (g := g) (r := r) (t := t)
    have hrest := ih (r := r.mark c g t)
    have hcons : r.markAll c g (t :: ts) = (r.mark c g t).markAll c g ts := rfl
    rw [hcons]
    omega

/-- A visit is paid for by the identifier that it is the first to see, or by the node that was due.
-/
theorem Paid.arrive (hp : r.Paid) (hn : ¬ r.settled g n = true) : (r.arrive c g n).Paid := by
  unfold Paid Run.arrive at *
  dsimp only
  rw [Std.ExtTreeSet.size_insert, Std.ExtTreeSet.size_erase]
  by_cases hseen : g.idOf n ∈ r.seen
  · have hdue : n ∈ r.revisit := by
      by_contra hdue
      exact hn (settled_iff.mpr ⟨hseen, hdue⟩)
    have hpos : 0 < r.revisit.size := by
      rw [← Std.ExtTreeSet.length_toList]
      exact List.length_pos_of_mem (Std.ExtTreeSet.mem_toList.mpr hdue)
    rw [if_pos (Std.ExtTreeSet.contains_iff_mem.mpr hseen),
      if_pos (Std.ExtTreeSet.contains_iff_mem.mpr hdue)]
    omega
  · rw [if_neg fun hc => hseen (Std.ExtTreeSet.contains_iff_mem.mp hc)]
    split <;> omega

/-- A visit is covered by the identifier it adds or by the mark of its node. -/
theorem Paid.visit (hp : r.Paid) (hn : ¬ r.settled g n = true) : (r.visit c g n rest).Paid := by
  have harrive := hp.arrive (c := c) hn
  unfold Run.visit
  dsimp only
  split
  · have hmarks := size_revisit_markAll_le (c := c) (g := g) (r := r.arrive c g n) (g.successors n)
    obtain ⟨hvisited, -⟩ := visited_markAll (c := c) (g := g) (r := r.arrive c g n) (g.successors n)
    obtain ⟨hseen, -⟩ := frame_markAll (c := c) (g := g) (r := r.arrive c g n) (g.successors n)
    unfold Paid at *
    unfold markAll at hmarks hvisited hseen
    dsimp only
    rw [hvisited, hseen]
    omega
  · exact harrive

/-- Only identifiers of nodes within reach are seen. -/
theorem mem_seen_visit_reachedIds {e : NodeId} (he : g.contains e = true)
    (hseen : ∀ id ∈ r.seen, id ∈ reachedIds g (some e)) (hk : r.Kept g) (hs : r.Sound c g e)
    (hnext : r.next? g = some (n, rest)) :
    ∀ id ∈ (r.visit c g n rest).seen, id ∈ reachedIds g (some e) := by
  obtain ⟨passed, hqueue, -, hn⟩ := exists_of_next?_eq_some hnext
  intro id hid
  rcases (mem_seen_visit hk hn).mp hid with rfl | hid
  · exact ⟨e, n, Graph.resolve_eq_some_iff.mpr ⟨rfl, he⟩,
      hs.queue_reach n (by rw [hqueue]; simp), rfl⟩
  · exact hseen id hid

end Run

/-! ### What a limit cuts off -/

/-- Whatever the first result holds the second holds too, and it counts no fewer visits. -/
structure Result.Within (r s : Result) : Prop where
  taintedIds : ∀ id ∈ r.taintedIds, id ∈ s.taintedIds
  sources : ∀ m ∈ r.sources, m ∈ s.sources
  marked : ∀ m ∈ r.marked, m ∈ s.marked
  visited_le : r.visited ≤ s.visited

protected theorem Result.Within.refl (r : Result) : r.Within r :=
  ⟨fun _ hid => hid, fun _ hm => hm, fun _ hm => hm, le_rfl⟩

/-- The first result is what a run finds in `limit` visits, the second what it finds without a
limit. -/
structure IsCut (limit : Nat) (cut full : Result) : Prop where
  visited_eq : cut.visited = min limit full.visited
  truncated_iff : cut.truncated = true ↔ limit < full.visited
  within : cut.Within full
  eq_full : cut.truncated = false → cut = full

protected theorem IsCut.refl {limit : Nat} {full : Result} (hvisited : full.visited ≤ limit)
    (htruncated : full.truncated = false) : IsCut limit full full where
  visited_eq := (min_eq_right hvisited).symm
  truncated_iff := by simp [htruncated, hvisited]
  within := .refl full
  eq_full _ := rfl

namespace Run

variable {c : TaintConfig} {g : Graph} {r : Run} {left all : Nat}

/-- What is found is not lost again. -/
theorem within_go (hk : r.Kept g) (left : Nat) : r.found.Within (go c g left r).found := by
  refine go_keeps (I := fun r' => r.found.Within r'.found) (fun r' n rest hk hnext hw => ?_)
    (fun _ hw => ⟨hw.taintedIds, hw.sources, hw.marked, hw.visited_le⟩) hk (.refl r.found) left
  obtain ⟨-, -, -, hn⟩ := exists_of_next?_eq_some hnext
  refine ⟨fun id hid => ?_, fun m hm => ?_, fun m hm => ?_, ?_⟩
  · exact (mem_taintedIds_visit hk hn).mpr (Or.inl (hw.taintedIds id hid))
  · exact (mem_sources_visit hk hn).mpr (Or.inl (hw.sources m hm))
  · exact (mem_marked_visit hk hn).mpr (Or.inl (hw.marked m hm))
  · rw [visited_visit.1]
    exact hw.visited_le.trans (Nat.le_succ _)

/-- **A limit stops the run, and does nothing else**: the two runs make the same visits until the
limit is used up. -/
theorem isCut_go (hk : r.Kept g) (hwork : r.work g ≤ all) (ht : r.found.truncated = false)
    (left : Nat) :
    IsCut (r.found.visited + left) (go c g left r).found (go c g all r).found := by
  -- along the run without limit; the limit varies, since every visit takes one from it
  refine go_induction (c := c) (motive := fun all r => ∀ left, r.found.truncated = false →
    IsCut (r.found.visited + left) (go c g left r).found (go c g all r).found)
    (fun all r hnext left ht => ?_) (fun all r n rest hk hnext ih left ht => ?_) hk hwork left ht
  · rw [go_of_next?_eq_none hnext, go_of_next?_eq_none hnext]
    exact .refl (Nat.le_add_right _ _) ht
  · have hvisited : (r.visit c g n rest).found.visited = r.found.visited + 1 := visited_visit.1
    have htruncated : (r.visit c g n rest).found.truncated = r.found.truncated := visited_visit.2
    rw [go_succ_of_next?_eq_some hnext all]
    cases left with
    | zero =>
      -- a visit is due, so the whole run makes one more than the limit allows
      have hstop : go c g 0 r = { r with found := { r.found with truncated := true } } := by
        simp [go, hnext]
      have hfirst := within_go (c := c) hk (all + 1)
      have hmore := (within_go (c := c) (hk.visit (c := c) hnext) all).visited_le
      rw [go_succ_of_next?_eq_some hnext] at hfirst
      rw [hvisited] at hmore
      rw [hstop]
      refine ⟨?_, iff_of_true rfl hmore, ⟨hfirst.taintedIds, hfirst.sources, hfirst.marked,
        hfirst.visited_le⟩, Bool.noConfusion⟩
      exact (min_eq_left hfirst.visited_le).symm
    | succ left =>
      have hrest := ih left (htruncated.trans ht)
      rw [hvisited, Nat.add_right_comm, Nat.add_assoc] at hrest
      rw [go_succ_of_next?_eq_some hnext left]
      exact hrest

end Run

/-! ### Whole runs -/

section Propagate

variable {c : TaintConfig} {g : Graph} {e : NodeId}

/-- The budget decides how many visits may be made and nothing else. -/
theorem go_maxVisits (budget : Option UInt64) (left : Nat) (r : Run) :
    Run.go { c with maxVisits := budget } g left r = Run.go c g left r := by
  induction left generalizing r with
  | zero => rfl
  | succ left ih =>
    unfold Run.go
    split
    · rfl
    · exact ih _

theorem propagate_maxVisits (he : g.contains e = true) (budget : Option UInt64) :
    propagate { c with maxVisits := budget } g (some e) =
      (Run.go c g (visitLimit { c with maxVisits := budget } g) (Run.start e)).found :=
  (Run.propagate_eq_go he).trans (congrArg Run.found (go_maxVisits budget _ _))

/-- A run that comes to its end is not truncated, and its visits are paid for. -/
theorem visited_go_le (he : g.contains e = true) {left : Nat}
    (hwork : (Run.start e).work g ≤ left) :
    (Run.go c g left (Run.start e)).found.truncated = false ∧
      (Run.go c g left (Run.start e)).found.visited ≤ (reachedIds g (some e)).ncard +
        (Run.go c g left (Run.start e)).found.marked.size := by
  obtain ⟨⟨-, htruncated, hseen, hpaid⟩, -⟩ := Run.go_finishes (c := c)
    (I := fun r => r.Sound c g e ∧ r.found.truncated = false ∧
      (∀ id ∈ r.seen, id ∈ reachedIds g (some e)) ∧ r.Paid)
    (fun r n rest hk hnext ⟨hs, ht, hseen, hpaid⟩ => by
      obtain ⟨-, -, -, hn⟩ := Run.exists_of_next?_eq_some hnext
      exact ⟨hs.visit hk hnext, Run.visited_visit.2.trans ht,
        Run.mem_seen_visit_reachedIds he hseen hk hs hnext, hpaid.visit hn⟩)
    (Run.kept_start he)
    ⟨Run.sound_start, rfl, fun id hid => absurd hid Std.ExtTreeSet.not_mem_empty, Nat.zero_le _⟩
    hwork
  have hsize := size_le_ncard_reachedIds hseen
  unfold Run.Paid at hpaid
  exact ⟨htruncated, by omega⟩

/-- **Runs end, and a budget is an exact cut.** On every graph, whatever identifiers are shared:
without a budget the queue runs empty and the run is not truncated, and it makes no more visits than
there are identifiers within reach of the entry and nodes marked. With a budget it makes as many of
these visits as the budget allows, is truncated exactly if there are more, and finds nothing that
the run without budget does not find; what is not truncated is the result without budget. -/
theorem propagate_ends_and_isCut (c : TaintConfig) (g : Graph) (entry : Option NodeId)
    (budget : UInt64) :
    let full := propagate { c with maxVisits := none } g entry
    let cut := propagate { c with maxVisits := some budget } g entry
    (∀ e, g.resolve entry = some e →
      ∃ r, ReflTransGen (Run.Pops c g) (Run.start e) r ∧ r.queue = [] ∧ r.found = full) ∧
    full.truncated = false ∧
    full.visited ≤ (reachedIds g entry).ncard + full.marked.size ∧
    IsCut budget.toNat cut full := by
  intro full cut
  cases hr : g.resolve entry with
  | none =>
    have hnothing : ∀ budget, propagate { c with maxVisits := budget } g entry = ∅ := by
      intro budget
      rw [propagate, hr]
    have hfull : full = ∅ := hnothing none
    have hcut : cut = ∅ := hnothing (some budget)
    rw [hfull, hcut]
    exact ⟨fun e he => absurd he (by simp), rfl, Nat.zero_le _, .refl (Nat.zero_le _) rfl⟩
  | some e =>
    obtain ⟨rfl, he⟩ := Graph.resolve_eq_some_iff.mp hr
    have hk : (Run.start e).Kept g := Run.kept_start he
    have hwork := (Run.start e).work_le g
    have hfull : full = (Run.go c g (2 * g.nodeCount) (Run.start e)).found :=
      propagate_maxVisits he none
    have hcut : cut = (Run.go c g budget.toNat (Run.start e)).found :=
      propagate_maxVisits he (some budget)
    obtain ⟨htruncated, hvisited⟩ := visited_go_le (c := c) he hwork
    have hisCut := Run.isCut_go (c := c) hk hwork rfl budget.toNat
    rw [hfull, hcut]
    refine ⟨?_, htruncated, hvisited, ?_⟩
    · rintro e' heq
      cases heq
      exact ⟨_, Run.pops_go hk hwork, rfl, rfl⟩
    · rwa [Run.start, Nat.zero_add] at hisCut

end Propagate

/-- Among the twins a run makes five visits. A budget of four cuts off the last one, which is the
second visit under one identifier; a budget of five cuts off nothing. -/
theorem propagate_ends_and_isCut_twins :
    let full := propagate {} twins (some ⟨0⟩)
    twins.resolve (some ⟨0⟩) = some ⟨0⟩ ∧
      (∃ r, ReflTransGen (Run.Pops {} twins) (Run.start ⟨0⟩) r ∧ r.queue = [] ∧ r.found = full) ∧
      full.visited = 5 ∧ IsCut 4 (propagate { maxVisits := some 4 } twins (some ⟨0⟩)) full ∧
      (propagate { maxVisits := some 4 } twins (some ⟨0⟩)).truncated = true ∧
      propagate { maxVisits := some 5 } twins (some ⟨0⟩) = full := by
  intro full
  have hresolve : twins.resolve (some ⟨0⟩) = some ⟨0⟩ := by decide
  have hvisited : full.visited = 5 := by decide
  obtain ⟨hends, -, -, hfour⟩ := propagate_ends_and_isCut {} twins (some ⟨0⟩) 4
  obtain ⟨-, -, -, hfive⟩ := propagate_ends_and_isCut {} twins (some ⟨0⟩) 5
  refine ⟨hresolve, hends ⟨0⟩ hresolve, hvisited, hfour, ?_, hfive.eq_full (by decide)⟩
  exact hfour.truncated_iff.mpr (by decide)

end ProgramGraph.Taint
