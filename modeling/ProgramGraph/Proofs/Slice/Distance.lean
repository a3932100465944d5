import Mathlib.Order.Bounds.Basic
import Mathlib.Order.Nat
import ProgramGraph.Proofs.Slice.Exactness

/-!
# Closures enter nodes in the order of their distance

`AtDistance` is the number of steps of a shortest walk over followed edges that does not touch a
set. A node is reached within a depth exactly if it has a distance that the depth allows
(`reaches_iff_atDistance`), and the first nodes of a shortest walk are at the distances at which the
walk comes there (`AtDistance.of_append`).

`Closure.visits` lists the nodes that a closure enters, each with the depth at which it does so.
This depth is the distance of the node (`mem_visits_iff`), no node is entered twice, and depths do
not fall along the list. Only the order of nodes at the same distance depends on the order in which
edges are listed.
-/

namespace ProgramGraph.Slice

open ProgramGraph.Graph (WalkVia)

variable {c : SliceConfig} {g : Graph} {d : Direction} {base : NodeSet} {start n : NodeId} {k : Nat}

/-! ### Distance -/

/-- The shortest walks over followed edges that lead from the start to the node without touching the
set have `k` steps. -/
def AtDistance (c : SliceConfig) (g : Graph) (d : Direction) (members : NodeSet)
    (start n : NodeId) (k : Nat) : Prop :=
  IsLeast {steps | ∃ ps, WalkVia (Followed c g d) (· ∉ members) start n ps ∧ ps.length = steps} k

/-- A node is reached exactly if the depth allows for its distance. -/
theorem reaches_iff_atDistance :
    Reaches c g d base start n ↔ ∃ k, AtDistance c g d base start n k ∧ Allows c k := by
  classical
  constructor
  · rintro ⟨ps, hwalk, hallows⟩
    have hleast := Nat.isLeast_find (p := fun steps =>
      ∃ ps, WalkVia (Followed c g d) (· ∉ base) start n ps ∧ ps.length = steps) ⟨_, ps, hwalk, rfl⟩
    exact ⟨_, hleast, hallows.mono (hleast.2 ⟨ps, hwalk, rfl⟩)⟩
  · rintro ⟨k, ⟨⟨ps, hwalk, rfl⟩, -⟩, hallows⟩
    exact ⟨ps, hwalk, hallows⟩

theorem AtDistance.notMem (h : AtDistance c g d base start n k) : n ∉ base := by
  obtain ⟨⟨ps, hwalk, -⟩, -⟩ := h
  obtain ⟨qs, hback, -⟩ := hwalk.reverse
  exact hback.clear_first

/-- A shortest walk comes to each of its nodes as early as any walk. -/
theorem AtDistance.of_append {p : NodeId} {front back : List NodeId}
    (h : AtDistance c g d base start n (front ++ back).length)
    (hwalk : WalkVia (Followed c g d) (· ∉ base) start n (front ++ back))
    (hfront : WalkVia (Followed c g d) (· ∉ base) start p front) :
    AtDistance c g d base start p front.length := by
  obtain ⟨q, hq, hback⟩ := WalkVia.append_iff.mp hwalk
  obtain rfl : p = q := hfront.2.1.symm.trans hq.2.1
  refine ⟨⟨front, hfront, rfl⟩, ?_⟩
  rintro _ ⟨qs, hqs, rfl⟩
  have hle := h.2 ⟨qs ++ back, WalkVia.append_iff.mpr ⟨p, hqs, hback⟩, rfl⟩
  simp only [List.length_append] at hle
  omega

namespace Closure

variable {s : Closure} {depth : Nat} {rest : List (NodeId × Nat)}

/-! ### Depths are distances -/

/-- **A node is entered at its distance**: a walk to the node can be taken up at a queued node, and
none is queued at a smaller depth. -/
theorem atDistance_of_next? (hsound : Sound c g d base start s)
    (hcovers : Covers c g d base start s) (hl : s.Layered)
    (hnext : s.next? = some (n, depth, rest)) :
    AtDistance c g d base start n depth ∧ Allows c depth := by
  obtain ⟨passed, hqueue, hpassed, hn⟩ := exists_of_next?_eq_some hnext
  obtain ⟨hdepth, -⟩ := hl.next hnext
  obtain ⟨ps, hwalk, hlength, hallows⟩ := hsound.queue_reached (n, depth) (by rw [hqueue]; simp)
    fun hbase => hn (hsound.base_subset n hbase)
  refine ⟨⟨⟨ps, hwalk, hlength⟩, ?_⟩, hallows⟩
  rintro _ ⟨qs, hqs, rfl⟩
  by_contra hshorter
  have hallows' : Allows c qs.length := hallows.mono (Nat.le_of_not_le hshorter)
  obtain ⟨entry, hentry, rs, hrs, hle⟩ := hcovers n qs hqs (Or.inr hallows') hn
  rw [hqueue, List.mem_append, List.mem_cons] at hentry
  rcases hentry with hentry | rfl | hentry
  · exact hrs.clear_first (hpassed entry hentry)
  · dsimp only at hle
    omega
  · have hlate := (hdepth entry hentry).1
    omega

/-! ### The order of entry -/

theorem layered_start : Layered { members := base, queue := [(start, 0)] } :=
  List.pairwise_singleton _ _

/-- The nodes that are entered, in this order, each with its depth. -/
def visits (c : SliceConfig) (g : Graph) (d : Direction) : (room : Nat) → Closure →
    List (NodeId × Nat)
  | 0, _ => []
  | room + 1, s =>
    match s.next? with
    | none => []
    | some (n, depth, rest) => (n, depth) :: visits c g d room (s.enter c g d n depth rest)

theorem visits_of_next?_eq_none (h : s.next? = none) (room : Nat) : visits c g d room s = [] := by
  cases room <;> simp [visits, h]

/-- A property of closures, of the nodes that they enter and of how they end holds if it holds where
nothing is entered, and of a closure if it holds of the one after its next node. -/
theorem run_induction {P : Closure → List (NodeId × Nat) → Closure → Prop}
    (hstop : ∀ s, P s [] s)
    (henter : ∀ s n depth rest vs s', s.next? = some (n, depth, rest) →
      P (s.enter c g d n depth rest) vs s' → P s ((n, depth) :: vs) s')
    (room : Nat) (s : Closure) : P s (visits c g d room s) (go c g d room s) := by
  induction room generalizing s with
  | zero => exact hstop s
  | succ room ih =>
    cases hnext : s.next? with
    | none =>
      rw [visits_of_next?_eq_none hnext, go_of_next?_eq_none hnext]
      exact hstop s
    | some next =>
      obtain ⟨n, depth, rest⟩ := next
      simp only [visits, go, hnext]
      exact henter s n depth rest _ _ hnext (ih _)

/-- A closure adds the nodes that it enters. -/
theorem mem_members_go (c : SliceConfig) (g : Graph) (d : Direction) (room : Nat) (s : Closure)
    (m : NodeId) : m ∈ (go c g d room s).members ↔
      m ∈ s.members ∨ ∃ k, (m, k) ∈ visits c g d room s := by
  refine run_induction (P := fun s vs s' => m ∈ s'.members ↔ m ∈ s.members ∨ ∃ k, (m, k) ∈ vs)
    (fun s => by simp) (fun s n depth rest vs s' _ ih => ?_) room s
  rw [ih, mem_members_enter]
  simp only [List.mem_cons, Prod.mk.injEq, exists_or, exists_eq_right]
  tauto

/-- Nodes are entered once, and only from outside of the set. -/
theorem nodup_visits (c : SliceConfig) (g : Graph) (d : Direction) (room : Nat) (s : Closure) :
    (∀ entry ∈ visits c g d room s, entry.1 ∉ s.members) ∧
      ((visits c g d room s).map Prod.fst).Nodup := by
  refine run_induction (P := fun s vs _ =>
      (∀ entry ∈ vs, entry.1 ∉ s.members) ∧ (vs.map Prod.fst).Nodup)
    (fun s => by simp) (fun s n depth rest vs s' hnext ih => ?_) room s
  obtain ⟨passed, -, -, hn⟩ := exists_of_next?_eq_some hnext
  obtain ⟨hout, hnodup⟩ := ih
  simp only [mem_members_enter, not_or] at hout
  refine ⟨List.forall_mem_cons.mpr ⟨hn, fun entry hentry => (hout entry hentry).2⟩,
    List.nodup_cons.mpr ⟨fun hmem => ?_, hnodup⟩⟩
  obtain ⟨entry, hentry, rfl⟩ := List.mem_map.mp hmem
  exact (hout entry hentry).1 rfl

/-- Depths do not fall from one node to a later one, and start no lower than in the queue. -/
theorem Layered.visits (hl : s.Layered) (c : SliceConfig) (g : Graph) (d : Direction) (room : Nat) :
    (∀ k, (∀ entry ∈ s.queue, k ≤ entry.2) → ∀ entry ∈ visits c g d room s, k ≤ entry.2) ∧
      (visits c g d room s).Pairwise fun entry entry' => entry.2 ≤ entry'.2 := by
  refine run_induction (P := fun s vs _ => s.Layered →
      (∀ k, (∀ entry ∈ s.queue, k ≤ entry.2) → ∀ entry ∈ vs, k ≤ entry.2) ∧
        vs.Pairwise fun entry entry' => entry.2 ≤ entry'.2)
    (fun s _ => by simp) (fun s n depth rest vs s' hnext ih hl => ?_) room s hl
  obtain ⟨passed, hqueue, -, -⟩ := exists_of_next?_eq_some hnext
  obtain ⟨ahead, hqueue', hahead⟩ := exists_queue_enter c g d s n depth rest
  obtain ⟨hlater, hpairwise⟩ := ih (hl.enter hnext)
  have hdeeper : ∀ entry ∈ vs, depth ≤ entry.2 := by
    refine hlater depth fun entry hentry => ?_
    rw [hqueue', List.mem_append] at hentry
    rcases hentry with hentry | hentry
    · exact ((hl.next hnext).1 entry hentry).1
    · have hnextlayer := ((hahead entry).mp hentry).2.2.2
      omega
  refine ⟨fun k hk => List.forall_mem_cons.mpr ?_, List.pairwise_cons.mpr ⟨hdeeper, hpairwise⟩⟩
  have hfirst : k ≤ depth := hk (n, depth) (by rw [hqueue]; simp)
  exact ⟨hfirst, fun entry hentry => hfirst.trans (hdeeper entry hentry)⟩

/-- Every node is entered at its distance from the start. -/
theorem atDistance_of_mem_visits (hsound : Sound c g d base start s)
    (hcovers : Covers c g d base start s) (hl : s.Layered) (room : Nat) :
    ∀ entry ∈ visits c g d room s,
      AtDistance c g d base start entry.1 entry.2 ∧ Allows c entry.2 := by
  refine run_induction (P := fun s vs _ => Sound c g d base start s → Covers c g d base start s →
      s.Layered → ∀ entry ∈ vs, AtDistance c g d base start entry.1 entry.2 ∧ Allows c entry.2)
    (fun s _ _ _ => by simp) (fun s n depth rest vs s' hnext ih hsound hcovers hl => ?_) room s
    hsound hcovers hl
  exact List.forall_mem_cons.mpr ⟨atDistance_of_next? hsound hcovers hl hnext,
    ih (hsound.enter hnext) (hcovers.enter hl hnext) (hl.enter hnext)⟩

end Closure

/-! ### The order of a whole closure -/

/-- The nodes that the closure of a start adds to a set, in the order in which they are entered,
each with its depth. -/
def visits (c : SliceConfig) (g : Graph) (d : Direction) (start : NodeId) (members : NodeSet) :
    List (NodeId × Nat) :=
  Closure.visits c g d g.nodeCount { members, queue := [(start, 0)] }

/-- No node is entered twice. -/
theorem nodup_visits (c : SliceConfig) (g : Graph) (d : Direction) (start : NodeId)
    (base : NodeSet) : ((visits c g d start base).map Prod.fst).Nodup :=
  (Closure.nodup_visits c g d _ _).2

/-- Nodes are entered by increasing depth. -/
theorem pairwise_visits (c : SliceConfig) (g : Graph) (d : Direction) (start : NodeId)
    (base : NodeSet) :
    (visits c g d start base).Pairwise fun entry entry' => entry.2 ≤ entry'.2 :=
  (Closure.layered_start.visits c g d _).2

theorem extend_eq_go (c : SliceConfig) (d : Direction) (base : NodeSet)
    (hstart : g.contains start = true) :
    let s := Closure.go c g d g.nodeCount { members := base, queue := [(start, 0)] }
    extend c g d (some start) base = (s.members, s.truncated) := by
  rw [extend, Graph.resolve_eq_some_iff.mpr ⟨rfl, hstart⟩]

/-- The closure of a node adds to a set the nodes that are entered. -/
theorem mem_extend_iff_visits (hstart : g.contains start = true) :
    n ∈ (extend c g d (some start) base).1 ↔ n ∈ base ∨ ∃ k, (n, k) ∈ visits c g d start base := by
  rw [extend_eq_go c d base hstart]
  exact Closure.mem_members_go c g d _ _ n

/-- **A closure enters the nodes within its depth, each at its distance.** -/
theorem mem_visits_iff (hstart : g.contains start = true) :
    (n, k) ∈ visits c g d start base ↔ AtDistance c g d base start n k ∧ Allows c k := by
  have hentered : ∀ k, (n, k) ∈ visits c g d start base →
      AtDistance c g d base start n k ∧ Allows c k := fun k hk =>
    Closure.atDistance_of_mem_visits (Closure.sound_start hstart) Closure.covers_start
      Closure.layered_start _ _ hk
  refine ⟨hentered k, fun ⟨hk, hallows⟩ => ?_⟩
  have hreached : Reaches c g d base start n := reaches_iff_atDistance.mpr ⟨k, hk, hallows⟩
  have hmem := (mem_extend_iff_reaches hstart).mpr (Or.inr hreached)
  obtain ⟨k', hk'⟩ := ((mem_extend_iff_visits hstart).mp hmem).resolve_left hk.notMem
  obtain rfl : k = k' := hk.unique (hentered k' hk').1
  exact hk'

theorem mem_nodes_directed_iff_visits (hstart : g.contains start = true) :
    n ∈ (directed c g d (some start)).nodes ↔ ∃ k, (n, k) ∈ visits c g d start ∅ :=
  (mem_extend_iff_visits hstart).trans (or_iff_right Std.ExtTreeSet.not_mem_empty)

/-- For a slice, the nodes are entered each at its distance from the criterion. -/
theorem mem_visits_iff_mem_nodes (hstart : g.contains start = true) :
    (n, k) ∈ visits c g d start ∅ ↔
      n ∈ (directed c g d (some start)).nodes ∧ AtDistance c g d ∅ start n k := by
  rw [mem_nodes_directed_iff_visits hstart]
  constructor
  · intro h
    exact ⟨⟨k, h⟩, ((mem_visits_iff hstart).mp h).1⟩
  · rintro ⟨⟨k', hk'⟩, hk⟩
    obtain rfl : k = k' := hk.unique ((mem_visits_iff hstart).mp hk').1
    exact hk'

end ProgramGraph.Slice
