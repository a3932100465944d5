import ProgramGraph.Proofs.Slice.Distance

/-!
# When a slice is called truncated

A slice whose depth cut something off is called truncated, but the converse fails. The flag is set
by a node at the greatest depth that leads to a node which is no member yet. Members are only the
nodes that were entered before, and not those that wait in the queue. So the flag is also set by an
edge between two nodes at the greatest depth if the first of them is entered before the second,
although the second is entered soon after and nothing is left out (`truncated_nothing_cut`).

`truncated_directed_iff` says that this is the only other reason. In particular the flag is precise
where no edge that is followed joins two different nodes at the greatest depth.
-/

namespace ProgramGraph.Slice

open ProgramGraph.Graph (WalkVia)

variable {c : SliceConfig} {g : Graph} {d : Direction} {members : NodeSet} {start m n t : NodeId}
  {k : Nat} {vs : List (NodeId × Nat)}

/-! ### What sets the flag -/

/-- A node of the list stands at the greatest depth and leads to a node outside of the set that does
not come before it. -/
def LeadsOn (c : SliceConfig) (g : Graph) (d : Direction) (members : NodeSet)
    (vs : List (NodeId × Nat)) : Prop :=
  ∃ before m k after t, vs = before ++ (m, k) :: after ∧ ¬ Allows c (k + 1) ∧ Followed c g d m t ∧
    t ∉ members ∧ t ≠ m ∧ t ∉ before.map Prod.fst

theorem leadsOn_cons : LeadsOn c g d members ((n, k) :: vs) ↔
    (¬ Allows c (k + 1) ∧ ∃ t, Followed c g d n t ∧ t ∉ members.insert n) ∨
      LeadsOn c g d (members.insert n) vs := by
  have hout : ∀ t, t ∉ members.insert n ↔ t ≠ n ∧ t ∉ members := by
    intro t
    rw [Std.ExtTreeSet.mem_insert, Std.LawfulEqOrd.compare_eq_iff_eq, not_or, ne_comm]
  constructor
  · rintro ⟨before, m, k', after, t, hvs, hdeepest, hfollowed, hmembers, hne, hbefore⟩
    rcases List.cons_eq_append_iff.mp hvs with ⟨rfl, hhead⟩ | ⟨before, rfl, rfl⟩
    · cases hhead
      exact Or.inl ⟨hdeepest, t, hfollowed, (hout t).mpr ⟨hne, hmembers⟩⟩
    · rw [List.map_cons, List.mem_cons, not_or] at hbefore
      exact Or.inr ⟨before, m, k', after, t, rfl, hdeepest, hfollowed,
        (hout t).mpr ⟨hbefore.1, hmembers⟩, hne, hbefore.2⟩
  · rintro (⟨hdeepest, t, hfollowed, ht⟩ |
      ⟨before, m, k', after, t, rfl, hdeepest, hfollowed, ht, hne, hbefore⟩)
    · obtain ⟨hne, hmembers⟩ := (hout t).mp ht
      exact ⟨[], n, k, vs, t, rfl, hdeepest, hfollowed, hmembers, hne, List.not_mem_nil⟩
    · obtain ⟨hne', hmembers⟩ := (hout t).mp ht
      exact ⟨(n, k) :: before, m, k', after, t, rfl, hdeepest, hfollowed, hmembers, hne,
        List.not_mem_cons_of_ne_of_not_mem hne' hbefore⟩

/-- A closure is cut short exactly if one of the nodes it enters leads on. -/
theorem Closure.truncated_go_iff (c : SliceConfig) (g : Graph) (d : Direction) (room : Nat)
    (s : Closure) : (go c g d room s).truncated = true ↔
      s.truncated = true ∨ LeadsOn c g d s.members (visits c g d room s) := by
  refine run_induction (P := fun s vs s' => s'.truncated = true ↔
      s.truncated = true ∨ LeadsOn c g d s.members vs)
    (fun s => by simp [LeadsOn]) (fun s n depth rest vs s' _ ih => ?_) room s
  rw [ih, truncated_enter_iff, members_enter, leadsOn_cons, or_assoc]

theorem truncated_directed_iff_leadsOn (hstart : g.contains start = true) :
    (directed c g d (some start)).truncated = true ↔ LeadsOn c g d ∅ (visits c g d start ∅) := by
  have htruncated : (directed c g d (some start)).truncated = (extend c g d (some start) ∅).2 := rfl
  rw [htruncated, extend_eq_go c d ∅ hstart]
  refine (Closure.truncated_go_iff c g d _ _).trans (or_iff_right ?_)
  exact Bool.false_ne_true

/-! ### What the flag says -/

/-- What a node of a slice leads to is in the slice without a bound. -/
theorem mem_unbounded_of_followed (hstart : g.contains start = true)
    (hm : m ∈ (directed c g d (some start)).nodes) (hfollowed : Followed c g d m t) :
    t ∈ (directed { c with maxDepth := none } g d (some start)).nodes := by
  obtain ⟨ps, hwalk, -⟩ := (mem_nodes_directed_iff hstart).mp hm
  refine (mem_nodes_directed_iff hstart).mpr ⟨ps ++ [t], ?_, allows_of_none rfl _⟩
  exact hwalk.concat hfollowed Std.ExtTreeSet.not_mem_empty

theorem truncated_of_cut (hstart : g.contains start = true)
    (hn : n ∈ (directed { c with maxDepth := none } g d (some start)).nodes)
    (hcut : n ∉ (directed c g d (some start)).nodes) :
    (directed c g d (some start)).truncated = true := by
  by_contra hflag
  rw [Bool.not_eq_true] at hflag
  rw [nodes_directed_of_not_truncated hstart hflag] at hcut
  exact hcut hn

section Bounded

variable {max : UInt64} (hmax : c.maxDepth = some max)

include hmax

/-- If the flag is set, the node that it was set for was cut off, or it was entered later and at the
same depth. -/
theorem cut_or_joined_of_leadsOn (hstart : g.contains start = true)
    (h : LeadsOn c g d ∅ (visits c g d start ∅)) :
    (∃ n ∈ (directed { c with maxDepth := none } g d (some start)).nodes,
      n ∉ (directed c g d (some start)).nodes) ∨
    ∃ m t, [(m, max.toNat), (t, max.toNat)].Sublist (visits c g d start ∅) ∧
      Followed c g d m t := by
  obtain ⟨before, m, k, after, t, hvisits, hdeepest, hfollowed, -, hne, hbefore⟩ := h
  have hm : (m, k) ∈ visits c g d start ∅ := by
    rw [hvisits]
    simp
  obtain rfl : k = max.toNat := by
    have hle := (allows_iff_le hmax).mp ((mem_visits_iff hstart).mp hm).2
    have hlt := (allows_iff_le hmax).not.mp hdeepest
    omega
  by_cases ht : t ∈ (directed c g d (some start)).nodes
  · obtain ⟨k, hk⟩ := (mem_nodes_directed_iff_visits hstart).mp ht
    have hle := (allows_iff_le hmax).mp ((mem_visits_iff hstart).mp hk).2
    have hpairwise := pairwise_visits c g d start ∅
    rw [hvisits] at hk hpairwise
    -- the node was not entered before, and so it was entered after
    have hafter : (t, k) ∈ after := by
      rcases List.mem_append.mp hk with hk | hk
      · exact absurd (List.mem_map_of_mem (f := Prod.fst) hk) hbefore
      · refine (List.mem_cons.mp hk).resolve_left fun heq => hne (congrArg Prod.fst heq)
    have hge := (List.pairwise_cons.mp (List.pairwise_append.mp hpairwise).2.1).1 (t, k) hafter
    obtain rfl : k = max.toNat := le_antisymm hle hge
    refine Or.inr ⟨m, t, ?_, hfollowed⟩
    rw [hvisits]
    exact ((List.singleton_sublist.mpr hafter).cons_cons _).trans (List.sublist_append_right _ _)
  · have hslice := (mem_nodes_directed_iff_visits hstart).mpr ⟨_, hm⟩
    exact Or.inl ⟨t, mem_unbounded_of_followed hstart hslice hfollowed, ht⟩

/-- An edge from a node at the greatest depth to one that is entered later sets the flag. -/
theorem leadsOn_of_joined (hfollowed : Followed c g d m t)
    (h : [(m, max.toNat), (t, max.toNat)].Sublist (visits c g d start ∅)) :
    LeadsOn c g d ∅ (visits c g d start ∅) := by
  have hnodup := nodup_visits c g d start ∅
  obtain ⟨front, back, hvisits, hm, ht⟩ := List.cons_sublist_iff.mp h
  obtain ⟨before, after, rfl⟩ := List.append_of_mem hm
  have hback := List.mem_map_of_mem (f := Prod.fst) (List.singleton_sublist.mp ht)
  rw [hvisits, List.map_append, List.nodup_append] at hnodup
  have hearlier : t ∉ (before ++ (m, max.toNat) :: after).map Prod.fst := fun hfront =>
    hnodup.2.2 t hfront t hback rfl
  simp only [List.map_append, List.map_cons, List.mem_append, List.mem_cons, not_or] at hearlier
  refine ⟨before, m, max.toNat, after ++ back, t, ?_, ?_, hfollowed, Std.ExtTreeSet.not_mem_empty,
    hearlier.2.1, hearlier.1⟩
  · rw [hvisits, List.append_assoc, List.cons_append]
  · rw [allows_iff_le hmax]
    omega

end Bounded

/-- **When a slice is called truncated**: if the depth cut something off, or an edge that is
followed leads from a node at the greatest depth to one at the same depth that is entered later. The
order of entry lists the nodes of the slice once each, with and by their distance from the
criterion. If no edge that is followed joins two different nodes at the greatest depth, the slice is
called truncated exactly if something was cut off. -/
theorem truncated_directed_iff (c : SliceConfig) (g : Graph) (d : Direction) (start : NodeId)
    (max : UInt64) (hmax : c.maxDepth = some max) (hstart : g.contains start = true) :
    let bounded := directed c g d (some start)
    let full := directed { c with maxDepth := none } g d (some start)
    let order := visits c g d start ∅
    (bounded.truncated = true ↔ (∃ n ∈ full.nodes, n ∉ bounded.nodes) ∨
      ∃ m t, [(m, max.toNat), (t, max.toNat)].Sublist order ∧ Followed c g d m t) ∧
    (∀ n k, (n, k) ∈ order ↔ n ∈ bounded.nodes ∧ AtDistance c g d ∅ start n k) ∧
    (order.map Prod.fst).Nodup ∧ order.Pairwise (fun entry entry' => entry.2 ≤ entry'.2) ∧
    ((∀ m t, AtDistance c g d ∅ start m max.toNat → AtDistance c g d ∅ start t max.toNat →
        Followed c g d m t → m = t) →
      (bounded.truncated = true ↔ ∃ n ∈ full.nodes, n ∉ bounded.nodes)) := by
  intro bounded full order
  have hflag : bounded.truncated = true ↔ (∃ n ∈ full.nodes, n ∉ bounded.nodes) ∨
      ∃ m t, [(m, max.toNat), (t, max.toNat)].Sublist order ∧ Followed c g d m t := by
    constructor
    · intro h
      exact cut_or_joined_of_leadsOn hmax hstart ((truncated_directed_iff_leadsOn hstart).mp h)
    · rintro (⟨n, hn, hcut⟩ | ⟨m, t, hjoined, hfollowed⟩)
      · exact truncated_of_cut hstart hn hcut
      · exact (truncated_directed_iff_leadsOn hstart).mpr (leadsOn_of_joined hmax hfollowed hjoined)
  have hnodup : (order.map Prod.fst).Nodup := nodup_visits c g d start ∅
  refine ⟨hflag, fun n k => mem_visits_iff_mem_nodes hstart, hnodup, pairwise_visits c g d start ∅,
    fun hlevel => ⟨fun h => (hflag.mp h).resolve_right ?_, fun h => hflag.mpr (Or.inl h)⟩⟩
  rintro ⟨m, t, hjoined, hfollowed⟩
  have hdistance : ∀ n, (n, max.toNat) ∈ [(m, max.toNat), (t, max.toNat)] →
      AtDistance c g d ∅ start n max.toNat := fun n hn =>
    ((mem_visits_iff hstart).mp (hjoined.subset hn)).1
  obtain rfl := hlevel m t (hdistance m (by simp)) (hdistance t (by simp)) hfollowed
  have htwice := (hjoined.map Prod.fst).nodup hnodup
  simp at htwice

/-- Three nodes in a chain, and an edge from the first to the last. With a depth of one, both other
nodes are at the greatest depth, the edge between them leads to the one that is entered later, and
the slice of the first node is called truncated. The slice of the first node of a chain of four is
so with reason. -/
theorem truncated_directed_iff_chain :
    let c : SliceConfig := { maxDepth := some 1 }
    let g := ((Graph.addShape ∅ .chain 3 "n").connect "skip" ⟨0⟩ ⟨2⟩).2
    let g' := Graph.addShape ∅ .chain 4 "n"
    g.contains ⟨0⟩ = true ∧ g'.contains ⟨0⟩ = true ∧
      (directed c g .forward (some ⟨0⟩)).truncated = true ∧
      ∃ n ∈ (directed { c with maxDepth := none } g' .forward (some ⟨0⟩)).nodes,
        n ∉ (directed c g' .forward (some ⟨0⟩)).nodes := by
  intro c g g'
  have hflag' : (directed c g' .forward (some ⟨0⟩)).truncated = true := by decide +kernel
  have horder' : ∀ entry ∈ visits c g' .forward ⟨0⟩ ∅, entry.2 = 1 → entry.1 = ⟨1⟩ := by
    decide +kernel
  obtain ⟨hflag, -⟩ := truncated_directed_iff c g .forward ⟨0⟩ 1 rfl (by decide)
  obtain ⟨-, -, -, -, hprecise⟩ := truncated_directed_iff c g' .forward ⟨0⟩ 1 rfl (by decide)
  refine ⟨by decide, by decide, hflag.mpr (Or.inr ⟨⟨1⟩, ⟨2⟩, by decide +kernel, by decide +kernel⟩),
    (hprecise fun m t hm ht _ => ?_).mp hflag'⟩
  have hlevel : ∀ p, AtDistance c g' .forward ∅ ⟨0⟩ p 1 → p = ⟨1⟩ := fun p hp =>
    horder' (p, 1) ((mem_visits_iff (by decide)).mpr ⟨hp, by decide +kernel⟩) rfl
  rw [hlevel m hm, hlevel t ht]

/-- The flag can be set although nothing was cut off: both other nodes are in the slice, with and
without the bound. Whether it is set also depends on the order of the edges. -/
theorem truncated_nothing_cut :
    let c : SliceConfig := { maxDepth := some 1 }
    let g := ((Graph.addShape ∅ .chain 3 "n").connect "skip" ⟨0⟩ ⟨2⟩).2
    let fork := (((Graph.addShape ∅ .chain 2 "n").addNode "n2").2.connect "fork" ⟨0⟩ ⟨2⟩).2
    let g' := (fork.connect "back" ⟨2⟩ ⟨1⟩).2
    g.contains ⟨0⟩ = true ∧ (forward c g (some ⟨0⟩)).truncated = true ∧
      (forward { c with maxDepth := none } g (some ⟨0⟩)).nodes =
        (forward c g (some ⟨0⟩)).nodes ∧
      (forward c g' (some ⟨0⟩)).truncated = false := by
  decide +kernel

end ProgramGraph.Slice
