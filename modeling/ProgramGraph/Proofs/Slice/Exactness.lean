import Mathlib.Data.Finset.Card
import Mathlib.Data.List.TakeWhile
import ProgramGraph.Graph.Shape
import ProgramGraph.Proofs.Graph.Adjacency
import ProgramGraph.Proofs.Graph.Walk
import ProgramGraph.Slice.Basic

/-!
# Closures are walks

`mem_extend_iff_reaches`: what `Slice.extend` adds to a set are the nodes that a walk over followed
edges reaches from the start without touching the set, in no more steps than the depth allows.
`slices_exact` says so for all slices in one direction, and that a slice which is not called
truncated is the one without a depth bound.

Nodes are members from the moment they are entered, not when they are queued, so that the queue can
hold a node several times and at different depths. What makes the first entry the one of least depth
is the order of the queue (`Closure.Layered`): depths do not fall along it, and the last is at most
one more than the first. With that, entering a node keeps that every walk to a node outside of the
set can be taken up at a queued node, from where it no longer meets the set, and no later than the
walk itself would have come there (`Closure.Covers`).
-/

namespace ProgramGraph.Slice

open ProgramGraph.Graph (WalkVia)

variable {c : SliceConfig} {g : Graph} {d : Direction}

/-! ### Followed edges -/

/-- An edge that is followed leads from the first node to the second. -/
def Followed (c : SliceConfig) (g : Graph) (d : Direction) (m n : NodeId) : Prop :=
  ∃ e, (e, n) ∈ g.neighbours d m ∧ follows c g e = true

/-- The depth allows for a walk of so many steps. -/
def Allows (c : SliceConfig) (steps : Nat) : Prop :=
  ∀ depth ∈ c.maxDepth, steps ≤ depth.toNat

/-- A walk over followed edges reaches the node from the start without touching the set, as far as
the depth allows. -/
def Reaches (c : SliceConfig) (g : Graph) (d : Direction) (members : NodeSet) (start n : NodeId) :
    Prop :=
  ∃ ps, WalkVia (Followed c g d) (· ∉ members) start n ps ∧ Allows c ps.length

instance (c : SliceConfig) (g : Graph) (d : Direction) (m n : NodeId) :
    Decidable (Followed c g d m n) :=
  decidable_of_iff (∃ entry ∈ g.neighbours d m, entry.2 = n ∧ follows c g entry.1 = true) (by
    constructor
    · rintro ⟨⟨e, t⟩, he, rfl, hfollows⟩
      exact ⟨e, he, hfollows⟩
    · rintro ⟨e, he, hfollows⟩
      exact ⟨(e, n), he, rfl, hfollows⟩)

theorem all_maxDepth_iff_allows {steps : Nat} :
    c.maxDepth.all (steps ≤ ·.toNat) = true ↔ Allows c steps := by
  rw [Allows]
  cases c.maxDepth with
  | none => simp
  | some max => simp

instance (c : SliceConfig) (steps : Nat) : Decidable (Allows c steps) :=
  decidable_of_iff _ all_maxDepth_iff_allows

theorem allows_of_none (h : c.maxDepth = none) (steps : Nat) : Allows c steps := by
  simp [Allows, h]

theorem allows_iff_le {max : UInt64} (h : c.maxDepth = some max) {steps : Nat} :
    Allows c steps ↔ steps ≤ max.toNat := by
  simp [Allows, h]

theorem Allows.mono {steps steps' : Nat} (h : Allows c steps') (hle : steps ≤ steps') :
    Allows c steps := fun depth hdepth => hle.trans (h depth hdepth)

theorem contains_of_followed {m n : NodeId} (h : Followed c g d m n) : g.contains n = true := by
  obtain ⟨e, he, -⟩ := h
  exact Graph.contains_of_mem_adjacent (List.mem_map_of_mem (f := Prod.snd) he)

/-- A node is followed on if the depth allows for one more step. -/
theorem withinDepth_iff {depth : Nat} : withinDepth c depth = true ↔ Allows c (depth + 1) := by
  rw [← all_maxDepth_iff_allows]
  exact Iff.rfl

namespace Closure

variable {s : Closure} {n t : NodeId} {depth : Nat} {rest : List (NodeId × Nat)}

/-! ### Entering a node -/

/-- The frontier of a node consists of what it leads to outside of the set. -/
theorem mem_frontier {members : NodeSet} :
    t ∈ frontier c g d members n ↔ Followed c g d n t ∧ t ∉ members := by
  simp only [frontier, List.mem_map, List.mem_filter, Bool.and_eq_true, Bool.not_eq_true',
    ← Bool.not_eq_true, Std.ExtTreeSet.contains_iff_mem]
  constructor
  · rintro ⟨⟨e, t'⟩, ⟨he, hout, hfollows⟩, rfl⟩
    exact ⟨⟨e, he, hfollows⟩, hout⟩
  · rintro ⟨⟨e, he, hfollows⟩, hout⟩
    exact ⟨(e, t), ⟨he, hout, hfollows⟩, rfl⟩

/-- When nothing is left to enter, all that is queued is in the set. -/
theorem mem_of_next?_eq_none (h : s.next? = none) {entry : NodeId × Nat}
    (hentry : entry ∈ s.queue) : entry.1 ∈ s.members := by
  have hnil : s.queue.dropWhile (s.members.contains ·.1) = [] := by
    unfold next? at h
    split at h
    · assumption
    · cases h
  exact Std.ExtTreeSet.contains_iff_mem.mp (List.dropWhile_eq_nil_iff.mp hnil entry hentry)

/-- Before the next node stand members only, and it is no member itself. -/
theorem exists_of_next?_eq_some (h : s.next? = some (n, depth, rest)) :
    ∃ passed : List (NodeId × Nat), s.queue = passed ++ (n, depth) :: rest ∧
      (∀ entry ∈ passed, entry.1 ∈ s.members) ∧ n ∉ s.members := by
  have hdrop : s.queue.dropWhile (s.members.contains ·.1) = (n, depth) :: rest := by
    unfold next? at h
    split at h
    · cases h
    · rename_i heq
      cases h
      exact heq
  refine ⟨s.queue.takeWhile (s.members.contains ·.1), ?_, fun entry hentry => ?_, ?_⟩
  · rw [← hdrop, List.takeWhile_append_dropWhile]
  · have hmember := List.mem_takeWhile_imp hentry
    exact Std.ExtTreeSet.contains_iff_mem.mp hmember
  · have hhead := List.head?_dropWhile_not (s.members.contains ·.1) s.queue
    rw [hdrop] at hhead
    rw [← Std.ExtTreeSet.contains_iff_mem, Bool.not_eq_true]
    simpa using hhead

@[simp]
theorem members_enter : (s.enter c g d n depth rest).members = s.members.insert n := by
  unfold enter
  dsimp only
  split <;> rfl

theorem mem_members_enter {m : NodeId} :
    m ∈ (s.enter c g d n depth rest).members ↔ m = n ∨ m ∈ s.members := by
  rw [members_enter, Std.ExtTreeSet.mem_insert, Std.LawfulEqOrd.compare_eq_iff_eq, eq_comm]

/-- The ends of the followed edges are queued one deeper, unless the depth is used up. -/
theorem exists_queue_enter (c : SliceConfig) (g : Graph) (d : Direction) (s : Closure) (n : NodeId)
    (depth : Nat) (rest : List (NodeId × Nat)) : ∃ ahead : List (NodeId × Nat),
    (s.enter c g d n depth rest).queue = rest ++ ahead ∧
      ∀ entry, entry ∈ ahead ↔ Allows c (depth + 1) ∧ Followed c g d n entry.1 ∧
        entry.1 ∉ (s.enter c g d n depth rest).members ∧ entry.2 = depth + 1 := by
  rw [← withinDepth_iff, members_enter]
  unfold enter
  dsimp only
  split
  · rename_i hwithin
    refine ⟨_, rfl, fun entry => ?_⟩
    simp only [List.mem_map, mem_frontier, hwithin, true_and]
    constructor
    · rintro ⟨t, ⟨hfollowed, hout⟩, rfl⟩
      exact ⟨hfollowed, hout, rfl⟩
    · rintro ⟨hfollowed, hout, hdepth⟩
      exact ⟨entry.1, ⟨hfollowed, hout⟩, Prod.ext rfl hdepth.symm⟩
  · rename_i hwithin
    refine ⟨[], (List.append_nil rest).symm, fun entry => ?_⟩
    simp [hwithin]

/-- The flag is set by a node at the greatest depth that leads out of the set. -/
theorem truncated_enter_iff : (s.enter c g d n depth rest).truncated = true ↔
    s.truncated = true ∨ ¬ Allows c (depth + 1) ∧
      ∃ t, Followed c g d n t ∧ t ∉ (s.enter c g d n depth rest).members := by
  have hahead : ∀ members, (frontier c g d members n).isEmpty = false ↔
      ∃ t, Followed c g d n t ∧ t ∉ members := by
    intro members
    rw [List.isEmpty_eq_false_iff_exists_mem]
    simp only [mem_frontier]
  rw [← withinDepth_iff, members_enter]
  unfold enter
  dsimp only
  split
  · rename_i hwithin
    simp [hwithin]
  · rename_i hwithin
    simp [hwithin, hahead]

/-! ### The order of the queue -/

/-- Depths do not fall along the queue, and the last is at most one more than the first. -/
def Layered (s : Closure) : Prop :=
  s.queue.Pairwise fun entry entry' => entry.2 ≤ entry'.2 ∧ entry'.2 ≤ entry.2 + 1

/-- In a layered queue the next node stands at the least depth that is left. -/
theorem Layered.next (hs : s.Layered) (hnext : s.next? = some (n, depth, rest)) :
    (∀ entry ∈ rest, depth ≤ entry.2 ∧ entry.2 ≤ depth + 1) ∧
      rest.Pairwise fun entry entry' => entry.2 ≤ entry'.2 ∧ entry'.2 ≤ entry.2 + 1 := by
  obtain ⟨passed, hqueue, -, -⟩ := exists_of_next?_eq_some hnext
  rw [Layered, hqueue] at hs
  exact List.pairwise_cons.mp (List.pairwise_append.mp hs).2.1

/-- Entering the first node of a layered queue appends the next layer at its end. -/
theorem Layered.enter (hs : s.Layered) (hnext : s.next? = some (n, depth, rest)) :
    (s.enter c g d n depth rest).Layered := by
  obtain ⟨hdepth, hrest⟩ := hs.next hnext
  obtain ⟨ahead, hqueue, hahead⟩ := exists_queue_enter c g d s n depth rest
  have hdeeper : ∀ entry ∈ ahead, entry.2 = depth + 1 := fun entry hentry =>
    ((hahead entry).mp hentry).2.2.2
  rw [Layered, hqueue, List.pairwise_append]
  refine ⟨hrest, List.pairwise_of_forall_mem_list fun entry hentry entry' hentry' => ?_,
    fun entry hentry entry' hentry' => ?_⟩
  · have h := hdeeper entry hentry
    have h' := hdeeper entry' hentry'
    omega
  · have h := hdepth entry hentry
    have h' := hdeeper entry' hentry'
    omega

/-! ### Everything that is entered is reached -/

section Invariants

variable (c g d) (base : NodeSet) (start : NodeId)

/-- The members are those of the first set and nodes that are reached, and a node is queued at a
depth at which a walk comes there. -/
structure Sound (s : Closure) : Prop where
  queue_contains : ∀ entry ∈ s.queue, g.contains entry.1 = true
  base_subset : ∀ m ∈ base, m ∈ s.members
  members_reached : ∀ m ∈ s.members, m ∈ base ∨ Reaches c g d base start m
  queue_reached : ∀ entry ∈ s.queue, entry.1 ∉ base →
    ∃ ps, WalkVia (Followed c g d) (· ∉ base) start entry.1 ps ∧ ps.length = entry.2 ∧
      Allows c entry.2

/-- Every walk that the depth allows, or any if the closure was not cut short, leads to a member, or
it can be taken up at a queued node, no later than it comes there and outside of the set from then
on. -/
def Covers (s : Closure) : Prop :=
  ∀ n ps, WalkVia (Followed c g d) (· ∉ base) start n ps →
    (s.truncated = false ∨ Allows c ps.length) → n ∉ s.members →
      ∃ entry ∈ s.queue, ∃ qs, WalkVia (Followed c g d) (· ∉ s.members) entry.1 n qs ∧
        entry.2 + qs.length ≤ ps.length

variable {c g d base start}

/-- At the start, only the start itself is queued, and the empty walk comes there. -/
theorem sound_start (hstart : g.contains start = true) :
    Sound c g d base start { members := base, queue := [(start, 0)] } where
  queue_contains entry hentry := by
    rw [List.mem_singleton.mp hentry]
    exact hstart
  base_subset _ hm := hm
  members_reached _ hm := Or.inl hm
  queue_reached entry hentry hout := by
    rw [List.mem_singleton.mp hentry] at hout ⊢
    exact ⟨[], Graph.walkVia_nil.mpr ⟨rfl, hout⟩, rfl, fun _ _ => Nat.zero_le _⟩

/-- **Entering a node is sound.** -/
theorem Sound.enter (hs : Sound c g d base start s) (hnext : s.next? = some (n, depth, rest)) :
    Sound c g d base start (s.enter c g d n depth rest) := by
  obtain ⟨passed, hqueue, -, hn⟩ := exists_of_next?_eq_some hnext
  obtain ⟨ahead, hqueue', hahead⟩ := exists_queue_enter c g d s n depth rest
  have hrest : ∀ entry ∈ rest, entry ∈ s.queue := by
    intro entry hentry
    rw [hqueue]
    simp [hentry]
  obtain ⟨ps, hwalk, hlen, hallows⟩ := hs.queue_reached (n, depth) (by rw [hqueue]; simp)
    fun hbase => hn (hs.base_subset n hbase)
  refine ⟨fun entry hentry => ?_, fun m hm => ?_, fun m hm => ?_, fun entry hentry hout => ?_⟩
  · rw [hqueue', List.mem_append] at hentry
    rcases hentry with hentry | hentry
    · exact hs.queue_contains entry (hrest entry hentry)
    · exact contains_of_followed ((hahead entry).mp hentry).2.1
  · exact mem_members_enter.mpr (Or.inr (hs.base_subset m hm))
  · rcases mem_members_enter.mp hm with rfl | hm
    · exact Or.inr ⟨ps, hwalk, by rwa [hlen]⟩
    · exact hs.members_reached m hm
  · rw [hqueue', List.mem_append] at hentry
    rcases hentry with hentry | hentry
    · exact hs.queue_reached entry (hrest entry hentry) hout
    · obtain ⟨hdeeper, hfollowed, -, hdepth⟩ := (hahead entry).mp hentry
      refine ⟨ps ++ [entry.1], hwalk.concat hfollowed hout, ?_, ?_⟩
      · rw [List.length_append, List.length_singleton, hlen, hdepth]
      · rwa [hdepth]

/-! ### Everything that is reached is entered -/

/-- At the start, every walk can be taken up at the start. -/
theorem covers_start : Covers c g d base start { members := base, queue := [(start, 0)] } := by
  intro n ps hwalk _ _
  exact ⟨(start, 0), List.mem_singleton_self _, ps, hwalk, by simp⟩

/-- **Entering the next node keeps all walks covered.** A walk that passes the node is taken up
after it has left it for the last time. That is no later than before, because no queued node stands
at a smaller depth. -/
theorem Covers.enter (hs : Covers c g d base start s) (hl : s.Layered)
    (hnext : s.next? = some (n, depth, rest)) :
    Covers c g d base start (s.enter c g d n depth rest) := by
  obtain ⟨passed, hqueue, hpassed, hn⟩ := exists_of_next?_eq_some hnext
  obtain ⟨ahead, hqueue', hahead⟩ := exists_queue_enter c g d s n depth rest
  obtain ⟨hdepth, -⟩ := hl.next hnext
  intro m ps hwalk hflag hm
  have hout : ∀ p, p ∉ s.members ∧ p ≠ n → p ∉ (s.enter c g d n depth rest).members := by
    rintro p ⟨hp, hpn⟩ hmem
    exact (mem_members_enter.mp hmem).elim hpn hp
  obtain ⟨hmn, hms⟩ := not_or.mp (fun h => hm (mem_members_enter.mpr h))
  have hflag' : s.truncated = false ∨ Allows c ps.length := by
    refine hflag.imp_left fun h => ?_
    rw [← Bool.not_eq_true, truncated_enter_iff, not_or, Bool.not_eq_true] at h
    exact h.1
  obtain ⟨entry, hentry, qs, hqs, hlen⟩ := hs m ps hwalk hflag' hms
  -- the queue before the next node is made of members, and the walk starts outside
  have hleft : entry = (n, depth) ∨ entry ∈ rest := by
    rw [hqueue, List.mem_append, List.mem_cons] at hentry
    exact hentry.resolve_left fun h => hqs.clear_first (hpassed entry h)
  rcases hqs.avoids_or_leaves hmn with havoids | ⟨t, ts, hfollowed, hts, hshorter⟩
  · refine ⟨entry, ?_, qs, havoids.imp hout, hlen⟩
    rw [hqueue', List.mem_append]
    refine Or.inl (hleft.resolve_left fun heq => ?_)
    rw [heq] at havoids
    exact havoids.clear_first.2 rfl
  · have hearlier : depth ≤ entry.2 := by
      rcases hleft with rfl | hrest
      · exact le_rfl
      · exact (hdepth entry hrest).1
    have htout := hout t hts.clear_first
    have hallows : Allows c (depth + 1) := by
      rcases hflag with hflag | hflag
      · -- not cut short, although the node leads out of the set
        by_contra hcut
        rw [← Bool.not_eq_true, truncated_enter_iff, not_or] at hflag
        exact hflag.2 ⟨hcut, t, hfollowed, htout⟩
      · intro max hmax
        have hmaxlen := hflag max hmax
        omega
    refine ⟨(t, depth + 1), ?_, ts, hts.imp hout, ?_⟩
    · rw [hqueue', List.mem_append]
      exact Or.inr ((hahead _).mpr ⟨hallows, hfollowed, htout, rfl⟩)
    · dsimp only
      omega

end Invariants

/-! ### Closures end -/

/-- The nodes that are no members. -/
def outside (g : Graph) (s : Closure) : Finset NodeId :=
  g.nodeIds.toFinset.filter (· ∉ s.members)

theorem card_outside_le (g : Graph) (s : Closure) : (s.outside g).card ≤ g.nodeCount :=
  calc (s.outside g).card ≤ g.nodeIds.toFinset.card := Finset.card_filter_le _ _
    _ ≤ g.nodeIds.length := List.toFinset_card_le _
    _ = g.nodeCount := by simp [Graph.nodeIds]

/-- Every node that is entered was outside. -/
theorem Sound.card_outside_lt {base : NodeSet} {start : NodeId} (hs : Sound c g d base start s)
    (hnext : s.next? = some (n, depth, rest)) :
    ((s.enter c g d n depth rest).outside g).card < (s.outside g).card := by
  obtain ⟨passed, hqueue, -, hn⟩ := exists_of_next?_eq_some hnext
  have hnode : g.contains n = true := hs.queue_contains (n, depth) (by rw [hqueue]; simp)
  have hsub : (s.enter c g d n depth rest).outside g ⊆ s.outside g := by
    refine Finset.monotone_filter_right _ fun m _ hm hmem => hm ?_
    exact mem_members_enter.mpr (Or.inr hmem)
  have hhad : n ∈ s.outside g :=
    Finset.mem_filter.mpr ⟨List.mem_toFinset.mpr (Graph.mem_nodeIds.mpr hnode), hn⟩
  have hlost : n ∉ (s.enter c g d n depth rest).outside g := fun h =>
    (Finset.mem_filter.mp h).2 (mem_members_enter.mpr (Or.inl rfl))
  exact Finset.card_lt_card ((Finset.ssubset_iff_of_subset hsub).mpr ⟨n, hhad, hlost⟩)

theorem go_of_next?_eq_none (h : s.next? = none) (room : Nat) : go c g d room s = s := by
  cases room <;> simp [go, h]

/-- **A closure with room for all nodes outside comes to its end**: no node is left to enter, and
both invariants hold. -/
theorem go_finishes {base : NodeSet} {start : NodeId} {room : Nat}
    (hsound : Sound c g d base start s) (hcovers : Covers c g d base start s) (hl : s.Layered)
    (hroom : (s.outside g).card ≤ room) :
    Sound c g d base start (go c g d room s) ∧ Covers c g d base start (go c g d room s) ∧
      (go c g d room s).next? = none := by
  induction room generalizing s with
  | zero =>
    cases hnext : s.next? with
    | none =>
      rw [go_of_next?_eq_none hnext]
      exact ⟨hsound, hcovers, hnext⟩
    | some next =>
      have hlt := hsound.card_outside_lt hnext
      omega
  | succ room ih =>
    cases hnext : s.next? with
    | none =>
      rw [go_of_next?_eq_none hnext]
      exact ⟨hsound, hcovers, hnext⟩
    | some next =>
      obtain ⟨n, depth, rest⟩ := next
      have hlt := hsound.card_outside_lt hnext
      simp only [go, hnext]
      exact ih (hsound.enter hnext) (hcovers.enter hl hnext) (hl.enter hnext) (by omega)

end Closure

/-! ### Slices -/

variable {start n : NodeId} {base : NodeSet}

/-- The members of a closure are those of the set and nodes that are reached; and all nodes that are
reached are members, at any depth if the closure was not cut short. -/
theorem extend_spec (c : SliceConfig) (d : Direction) (base : NodeSet)
    (hstart : g.contains start = true) :
    (∀ n ∈ base, n ∈ (extend c g d (some start) base).1) ∧
      (∀ n ∈ (extend c g d (some start) base).1, n ∈ base ∨ Reaches c g d base start n) ∧
      ∀ n ps, WalkVia (Followed c g d) (· ∉ base) start n ps →
        ((extend c g d (some start) base).2 = false ∨ Allows c ps.length) →
          n ∈ (extend c g d (some start) base).1 := by
  have hresolve : g.resolve (some start) = some start :=
    Graph.resolve_eq_some_iff.mpr ⟨rfl, hstart⟩
  have hstarted : Closure.Sound c g d base start { members := base, queue := [(start, 0)] } :=
    Closure.sound_start hstart
  obtain ⟨hsound, hcovers, hend⟩ := Closure.go_finishes hstarted Closure.covers_start
    (List.pairwise_singleton _ _) (Closure.card_outside_le g _)
  rw [extend, hresolve]
  refine ⟨hsound.base_subset, hsound.members_reached, fun n ps hwalk hflag => ?_⟩
  by_contra hn
  obtain ⟨entry, hentry, qs, hqs, -⟩ := hcovers n ps hwalk hflag hn
  exact hqs.clear_first (Closure.mem_of_next?_eq_none hend hentry)

/-- **A closure adds what is reached.** -/
theorem mem_extend_iff_reaches (hstart : g.contains start = true) :
    n ∈ (extend c g d (some start) base).1 ↔ n ∈ base ∨ Reaches c g d base start n := by
  obtain ⟨hbase, hsound, hcomplete⟩ := extend_spec c d base hstart
  constructor
  · exact hsound n
  · rintro (hn | ⟨ps, hwalk, hallows⟩)
    · exact hbase n hn
    · exact hcomplete n ps hwalk (Or.inr hallows)

/-- The slice in one direction is what is reached from the criterion. -/
theorem mem_nodes_directed_iff (hstart : g.contains start = true) :
    n ∈ (directed c g d (some start)).nodes ↔ Reaches c g d ∅ start n := by
  have hnodes : (directed c g d (some start)).nodes = (extend c g d (some start) ∅).1 := rfl
  rw [hnodes, mem_extend_iff_reaches hstart]
  simp [Std.ExtTreeSet.not_mem_empty]

/-- Without a depth, the slice in one direction is what can be reached over followed edges. -/
theorem mem_nodes_directed_iff_reflTransGen (hstart : g.contains start = true)
    (hdepth : c.maxDepth = none) :
    n ∈ (directed c g d (some start)).nodes ↔ Relation.ReflTransGen (Followed c g d) start n := by
  have hwalks : (∃ ps, WalkVia (Followed c g d) (· ∉ (∅ : NodeSet)) start n ps) ↔
      Relation.ReflTransGen (Followed c g d) start n :=
    WalkVia.exists_iff_reflTransGen fun _ => Std.ExtTreeSet.not_mem_empty
  rw [← hwalks]
  refine (mem_nodes_directed_iff hstart).trans (exists_congr fun ps => ?_)
  exact and_iff_left (allows_of_none hdepth ps.length)

/-- Without a depth, and if every edge is followed, the forward slice is what can be reached. -/
theorem mem_nodes_forward_iff_leads (hstart : g.contains start = true) (hdepth : c.maxDepth = none)
    (hkind : c.edgeKindKey = none) :
    n ∈ (forward c g (some start)).nodes ↔ Relation.ReflTransGen g.Leads start n := by
  have hfollowed : Followed c g .forward = g.Leads := by
    funext m t
    simp [Followed, follows, hkind, Graph.leads_iff, Graph.neighbours]
  rw [← hfollowed]
  exact mem_nodes_directed_iff_reflTransGen hstart hdepth

/-- A slice that was not cut short is the one without a bound. -/
theorem nodes_directed_of_not_truncated (hstart : g.contains start = true)
    (ht : (directed c g d (some start)).truncated = false) :
    (directed c g d (some start)).nodes =
      (directed { c with maxDepth := none } g d (some start)).nodes := by
  obtain ⟨-, -, hcomplete⟩ := extend_spec c d ∅ hstart
  refine Std.ExtTreeSet.ext_mem fun n => ?_
  rw [mem_nodes_directed_iff (c := { c with maxDepth := none }) hstart]
  constructor
  · intro hn
    obtain ⟨ps, hwalk, -⟩ := (mem_nodes_directed_iff hstart).mp hn
    exact ⟨ps, hwalk, allows_of_none rfl _⟩
  · rintro ⟨ps, hwalk, -⟩
    exact hcomplete n ps hwalk (Or.inl ht)

/-- **Closures and slices are walks**, in both directions and for every depth and filter: what is
added to a set, what the slices of a criterion hold, and when the bound made no difference. -/
theorem slices_exact (c : SliceConfig) (g : Graph) (start : NodeId)
    (hstart : g.contains start = true) :
    (∀ base n, n ∈ extendForward c g (some start) base ↔
      n ∈ base ∨ Reaches c g .forward base start n) ∧
    (∀ base n, n ∈ extendBackward c g (some start) base ↔
      n ∈ base ∨ Reaches c g .backward base start n) ∧
    (forward c g (some start)).nodes = extendForward c g (some start) ∅ ∧
    (backward c g (some start)).nodes = extendBackward c g (some start) ∅ ∧
    ((forward c g (some start)).truncated = false → (forward c g (some start)).nodes =
      (forward { c with maxDepth := none } g (some start)).nodes) ∧
    ((backward c g (some start)).truncated = false → (backward c g (some start)).nodes =
      (backward { c with maxDepth := none } g (some start)).nodes) :=
  ⟨fun _ _ => mem_extend_iff_reaches hstart, fun _ _ => mem_extend_iff_reaches hstart, rfl, rfl,
    nodes_directed_of_not_truncated hstart, nodes_directed_of_not_truncated hstart⟩

/-- A chain of five nodes with an edge from the first to the third, to be followed up to depth two
from a set that holds the second node: the fourth node is reached past that set, over the extra
edge, and the fifth is too far away. Back from the second node the depth suffices. -/
theorem slices_exact_chain :
    let c : SliceConfig := { maxDepth := some 2, edgeKindKey := some "kind", edgeKinds := ["data"] }
    let g := ([⟨0⟩, ⟨1⟩, ⟨2⟩, ⟨3⟩, ⟨4⟩] : List EdgeId).foldl
      (fun g e => g.setEdgeProperty e "kind" "data")
      ((Graph.addShape ∅ .chain 5 "n").connect "skip" ⟨0⟩ ⟨2⟩).2
    let base : NodeSet := (∅ : NodeSet).insert ⟨1⟩
    g.contains ⟨0⟩ = true ∧ g.contains ⟨1⟩ = true ∧
      ⟨3⟩ ∈ extendForward c g (some ⟨0⟩) base ∧ ¬ Reaches c g .forward base ⟨0⟩ ⟨4⟩ ∧
      (backward c g (some ⟨1⟩)).truncated = false ∧ (backward c g (some ⟨1⟩)).nodes =
        (backward { c with maxDepth := none } g (some ⟨1⟩)).nodes := by
  intro c g base
  have hfar : (extendForward c g (some ⟨0⟩) base).contains ⟨4⟩ = false := by decide +kernel
  have hback : (backward c g (some ⟨1⟩)).truncated = false := by decide +kernel
  obtain ⟨hforward, -⟩ := slices_exact c g ⟨0⟩ (by decide)
  obtain ⟨-, -, -, -, -, hbackward⟩ := slices_exact c g ⟨1⟩ (by decide)
  refine ⟨by decide, by decide, (hforward base ⟨3⟩).mpr (Or.inr ?_), fun h => ?_, hback,
    hbackward hback⟩
  · exact ⟨[⟨2⟩, ⟨3⟩], ⟨by decide +kernel, rfl, by decide +kernel⟩, by decide +kernel⟩
  · have hmem := (hforward base ⟨4⟩).mpr (Or.inr h)
    rw [← Std.ExtTreeSet.contains_iff_mem, hfar] at hmem
    cases hmem

end ProgramGraph.Slice
