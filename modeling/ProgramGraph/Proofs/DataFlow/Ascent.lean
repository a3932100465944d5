import Mathlib.Algebra.BigOperators.Ring.List
import Mathlib.Algebra.Order.BigOperators.Group.List
import Mathlib.Algebra.Order.Ring.Nat
import Mathlib.Data.List.Forall2
import ProgramGraph.Proofs.DataFlow.Iteration

/-!
# Iterations that climb come to an end

A problem *ascends* on a graph when its facts are ordered so that meet and transfer are monotone, no
fact that occurs lies below the initial one, and a strict step upward raises a rank that is bounded.
`Ascent` collects these conditions; which facts can occur is part of it (`Ascent.Attained`), since
the bound need not hold for all others.

The facts of an ascending problem only climb: `Climbing` says that each node's fact lies below the
one that it would produce next. A step that changes a fact uses up rank, and it queues at most as
many nodes as the changed node has targets. So `Ascent.potential`, the length of the queue and for
every node the rank that is left times the number of its targets, falls with every step, and the
allowance of the problem is enough (`Ascent.truncated_solve`). The lists of the graph need not agree
for this.
-/

namespace ProgramGraph.DataFlow

universe u

variable {Fact : Type u} {P : Problem Fact} {g : Graph}

/-- An order on the facts along which the iteration climbs, with a bounded rank. -/
structure Ascent (P : Problem Fact) (g : Graph) where
  le : Fact → Fact → Prop
  /-- The facts that can occur. -/
  Attained : Fact → Prop
  rank : Fact → Nat
  /-- The greatest rank. -/
  height : Nat
  le_refl : ∀ a, le a a
  le_trans : ∀ {a b c}, le a b → le b c → le a c
  meet_le_meet : ∀ {a a' b b'}, le a a' → le b b' → le (P.meet a b) (P.meet a' b')
  transfer_le_transfer : ∀ {a b} (n node), le a b → le (P.transfer n node a) (P.transfer n node b)
  attained_initial : Attained (P.initial g)
  attained_boundary : Attained (P.boundary g)
  attained_meet : ∀ {a b}, Attained a → Attained b → Attained (P.meet a b)
  attained_transfer : ∀ {a n node}, g.node? n = some node → Attained a →
    Attained (P.transfer n node a)
  initial_le : ∀ {a}, Attained a → le (P.initial g) a
  rank_lt_rank : ∀ {a b}, Attained a → Attained b → le a b → a ≠ b → rank a < rank b
  rank_le_height : ∀ {a}, Attained a → rank a ≤ height

namespace Ascent

variable (A : Ascent P g)

theorem rel_refl (o : Option Fact) : Option.Rel A.le o o := by
  cases o with
  | none => exact Option.Rel.none
  | some fact => exact Option.Rel.some (A.le_refl fact)

theorem rel_trans {o o' o'' : Option Fact} (h : Option.Rel A.le o o')
    (h' : Option.Rel A.le o' o'') : Option.Rel A.le o o'' := by
  cases h with
  | none => exact h'
  | some hab =>
    cases h' with
    | some hbc => exact Option.Rel.some (A.le_trans hab hbc)

/-! ### What arrives is monotone and attained -/

/-- Meets rise with their parts. -/
theorem meetAll_le_meetAll {xs ys : List Fact} (h : List.Forall₂ A.le xs ys) :
    A.le (P.meetAll g xs) (P.meetAll g ys) := by
  have hmeet : Relator.LiftFun A.le (Relator.LiftFun A.le A.le) P.meet P.meet :=
    fun _ _ ha _ _ hb => A.meet_le_meet ha hb
  cases h with
  | nil => exact A.le_refl _
  | cons hxy hrest => exact List.rel_foldl hmeet hxy hrest

/-- A meet of attained facts is attained. -/
theorem attained_meetAll {facts : List Fact} (h : ∀ fact ∈ facts, A.Attained fact) :
    A.Attained (P.meetAll g facts) := by
  cases facts with
  | nil => exact A.attained_boundary
  | cons fact facts =>
    refine List.foldlRecOn facts P.meet (h fact List.mem_cons_self) fun a ha b hb => ?_
    exact A.attained_meet ha (h b (List.mem_cons_of_mem fact hb))

/-- More arrives at a node when all nodes produce more. -/
theorem arrivingAt_le_arrivingAt {xs ys : Array Fact}
    (h : ∀ n : NodeId, Option.Rel A.le xs[n.index]? ys[n.index]?) (n : NodeId) :
    A.le (P.arrivingAt g xs n) (P.arrivingAt g ys n) := by
  refine A.meetAll_le_meetAll ?_
  refine List.rel_filterMap (R := Eq) (fun m m' heq => ?_) (List.forall₂_same.mpr fun _ _ => rfl)
  rw [← heq]
  exact h m

/-- A node produces more when all nodes produce more. -/
theorem producedAt_le_producedAt {xs ys : Array Fact}
    (h : ∀ n : NodeId, Option.Rel A.le xs[n.index]? ys[n.index]?) (n : NodeId) (node : Node) :
    A.le (P.producedAt g xs n node) (P.producedAt g ys n node) :=
  A.transfer_le_transfer n node (A.arrivingAt_le_arrivingAt h n)

/-- What arrives at a node is attained. -/
theorem attained_arrivingAt {s : Iteration Fact} (hs : Problem.Produces (fun _ => A.Attained) s)
    (n : NodeId) : A.Attained (P.arrivingAt g s.produced n) := by
  refine A.attained_meetAll fun fact hfact => ?_
  obtain ⟨m, -, hm⟩ := List.mem_filterMap.mp hfact
  exact hs m fact hm

/-- And so is what the node produces from it. -/
theorem attained_producedAt {s : Iteration Fact} (hs : Problem.Produces (fun _ => A.Attained) s)
    {n : NodeId} {node : Node} (hn : g.node? n = some node) :
    A.Attained (P.producedAt g s.produced n node) :=
  A.attained_transfer hn (A.attained_arrivingAt hs n)

/-! ### The facts climb -/

/-- Every fact is one that can occur, and lies below the one that its node would produce next. -/
structure Climbing (s : Iteration Fact) : Prop where
  produced_size : s.produced.size = g.nodeCount
  attained : Problem.Produces (fun _ => A.Attained) s
  le_producedAt : ∀ n node fact, g.node? n = some node → s.produced[n.index]? = some fact →
    A.le fact (P.producedAt g s.produced n node)

/-- The iteration starts at the bottom. -/
theorem climbing_start : A.Climbing (P.start g) where
  produced_size := by simp [Problem.start]
  attained := Problem.produces_start fun _ => A.attained_initial
  le_producedAt n node fact hn hfact := by
    have hattained := A.attained_producedAt
      (Problem.produces_start fun _ => A.attained_initial) hn
    have hinitial : fact = P.initial g :=
      Problem.produces_start (P := P) (I := fun _ fact => fact = P.initial g)
        (fun _ => rfl) n fact hfact
    rw [hinitial]
    exact A.initial_le hattained

variable [DecidableEq Fact] {A} {s : Iteration Fact}

/-- A step raises the fact of its node and leaves the others alone. -/
theorem Climbing.rel_step (hs : A.Climbing s) (n : NodeId) (rest : List NodeId) (m : NodeId) :
    Option.Rel A.le s.produced[m.index]? (P.step g s n rest).produced[m.index]? := by
  cases hn : g.node? n with
  | none =>
    rw [Problem.step_of_none hn]
    exact A.rel_refl _
  | some node =>
    rw [Problem.getElem?_produced_step hn hs.produced_size]
    split
    · rename_i heq
      subst heq
      have hlt : m.index < s.produced.size := by
        rw [hs.produced_size]
        exact Graph.contains_iff.mp (Graph.contains_of_node? hn)
      rw [Array.getElem?_eq_getElem hlt]
      exact Option.Rel.some (hs.le_producedAt m node _ hn (Array.getElem?_eq_getElem hlt))
    · exact A.rel_refl _

/-- **A step keeps the facts climbing.** -/
theorem Climbing.step (hs : A.Climbing s) (n : NodeId) (rest : List NodeId) :
    A.Climbing (P.step g s n rest) where
  produced_size := Problem.size_produced_step.trans hs.produced_size
  attained := hs.attained.step hs.produced_size fun _ hn => A.attained_producedAt hs.attained hn
  le_producedAt m mnode fact hm hfact := by
    have hrise := A.producedAt_le_producedAt (hs.rel_step n rest) m mnode
    cases hn : g.node? n with
    | none =>
      rw [Problem.step_of_none hn] at hfact hrise ⊢
      exact hs.le_producedAt m mnode fact hm hfact
    | some node =>
      rw [Problem.getElem?_produced_step hn hs.produced_size] at hfact
      split at hfact
      · rename_i heq
        subst heq
        rw [hm] at hn
        cases hn
        cases hfact
        -- the new fact is what the node produced from the old ones, and those have only climbed
        exact hrise
      · exact A.le_trans (hs.le_producedAt m mnode fact hm hfact) hrise

variable (A) in
/-- What arrives at a node, at any time, is a fact that can occur. -/
theorem attained_of_arriving {limit : Nat} {n : NodeId} {fact : Fact}
    (h : (P.iterate g limit (P.start g)).arriving[n.index]? = some fact) : A.Attained fact := by
  have hstep : ∀ s m rest, s.queue = m :: rest →
      A.Climbing s ∧ (∀ (i : Nat) fact, s.arriving[i]? = some fact → A.Attained fact) →
      A.Climbing (P.step g s m rest) ∧
        ∀ (i : Nat) fact, (P.step g s m rest).arriving[i]? = some fact → A.Attained fact := by
    rintro s m rest - ⟨hs, harriving⟩
    refine ⟨hs.step m rest, fun i fact hfact => ?_⟩
    cases hm : g.node? m with
    | none =>
      rw [Problem.step_of_none hm] at hfact
      exact harriving i fact hfact
    | some node =>
      rw [Problem.arriving_step hm, Array.getElem?_setIfInBounds] at hfact
      split at hfact
      · split at hfact
        · cases hfact
          exact A.attained_arrivingAt hs.attained m
        · cases hfact
      · exact harriving i fact hfact
  have hstart : ∀ (i : Nat) fact, (P.start g).arriving[i]? = some fact → A.Attained fact :=
    fun i => Problem.produces_start (P := P) (I := fun _ => A.Attained)
      (fun _ => A.attained_initial) ⟨i⟩
  obtain ⟨s, ⟨-, hs⟩, -, ⟨-, heq⟩ | heq⟩ :=
    Problem.iterate_induction hstep limit ⟨A.climbing_start, hstart⟩
  · rw [heq] at h
    exact hs _ _ h
  · rw [heq] at h
    exact hs _ _ h

/-! ### The potential -/

variable (A) in
/-- How far the fact of a node can still climb. -/
def room (produced : Array Fact) (n : NodeId) : Nat :=
  (produced[n.index]?.map fun fact => A.height - A.rank fact).getD 0

omit [DecidableEq Fact] in
variable (A) in
/-- A fact has at most the height of the problem left to climb. -/
theorem room_le_height (produced : Array Fact) (n : NodeId) : A.room produced n ≤ A.height := by
  unfold room
  cases produced[n.index]? with
  | none => exact Nat.zero_le _
  | some fact => exact Nat.sub_le _ _

variable (A) in
/-- The nodes that are queued, and for every node how often its targets can still be queued. -/
def potential (s : Iteration Fact) : Nat :=
  s.queue.length + (g.nodeIds.map fun n => A.room s.produced n * (P.targets g n).length).sum

/-- A sum falls by as much as one of its terms, if no term grows. -/
private theorem sum_map_add_le {α : Type} {f f' : α → Nat} {a : α} {k : Nat} {l : List α}
    (ha : a ∈ l) (hle : ∀ b, f' b ≤ f b) (hdrop : f' a + k ≤ f a) :
    (l.map f').sum + k ≤ (l.map f).sum := by
  induction l with
  | nil => cases ha
  | cons b l ih =>
    have hb := hle b
    have hrest : (l.map f').sum ≤ (l.map f).sum := List.sum_le_sum fun c _ => hle c
    simp only [List.map_cons, List.sum_cons]
    rcases List.mem_cons.mp ha with rfl | hmem
    · omega
    · have := ih hmem
      omega

/-- A step leaves no node more room. -/
theorem Climbing.room_step_le (hs : A.Climbing s) (n : NodeId) (rest : List NodeId) (m : NodeId) :
    A.room (P.step g s n rest).produced m ≤ A.room s.produced m := by
  have hrel := hs.rel_step n rest m
  unfold room
  cases ha : s.produced[m.index]? with
  | none =>
    rw [ha] at hrel
    cases hb : (P.step g s n rest).produced[m.index]? with
    | none => exact le_rfl
    | some b => rw [hb] at hrel; cases hrel
  | some a =>
    rw [ha] at hrel
    cases hb : (P.step g s n rest).produced[m.index]? with
    | none => exact Nat.zero_le _
    | some b =>
      rw [hb] at hrel
      cases hrel with
      | some hle =>
        have hrank : A.rank a ≤ A.rank b := by
          by_cases hab : a = b
          · rw [hab]
          · exact (A.rank_lt_rank (hs.attained m a ha)
              ((hs.step n rest).attained m b hb) hle hab).le
        simp only [Option.map_some, Option.getD_some]
        omega

/-- A node whose fact changes has less room afterwards. -/
theorem Climbing.room_step_lt (hs : A.Climbing s) {n : NodeId} {node : Node} (rest : List NodeId)
    (hn : g.node? n = some node)
    (hne : s.produced[n.index]? ≠ some (P.producedAt g s.produced n node)) :
    A.room (P.step g s n rest).produced n < A.room s.produced n := by
  have hlt : n.index < s.produced.size := by
    rw [hs.produced_size]
    exact Graph.contains_iff.mp (Graph.contains_of_node? hn)
  have hold := Array.getElem?_eq_getElem hlt
  have hattained := A.attained_producedAt hs.attained hn
  have hrank := A.rank_lt_rank (hs.attained n _ hold) hattained
    (hs.le_producedAt n node _ hn hold) fun heq => hne (by rw [hold, heq])
  have hheight := A.rank_le_height hattained
  unfold room
  rw [Problem.getElem?_produced_step hn hs.produced_size, if_pos rfl, hold]
  simp only [Option.map_some, Option.getD_some]
  omega

/-- **Every step lowers the potential.** -/
theorem Climbing.potential_step_lt (hs : A.Climbing s) {n : NodeId} {rest : List NodeId}
    (hq : s.queue = n :: rest) : A.potential (P.step g s n rest) < A.potential s := by
  have hle : ∀ m, A.room (P.step g s n rest).produced m * (P.targets g m).length ≤
      A.room s.produced m * (P.targets g m).length := fun m =>
    Nat.mul_le_mul_right _ (hs.room_step_le n rest m)
  have hsum : (g.nodeIds.map fun m =>
        A.room (P.step g s n rest).produced m * (P.targets g m).length).sum ≤
      (g.nodeIds.map fun m => A.room s.produced m * (P.targets g m).length).sum :=
    List.sum_le_sum fun m _ => hle m
  have hlen : s.queue.length = rest.length + 1 := by rw [hq, List.length_cons]
  unfold potential
  cases hn : g.node? n with
  | none =>
    have hqueue : (P.step g s n rest).queue = rest := by rw [Problem.step_of_none hn]
    rw [hqueue]
    omega
  | some node =>
    by_cases hsame : s.produced[n.index]? = some (P.producedAt g s.produced n node)
    · rw [Problem.queue_step_of_eq hn hsame]
      omega
    · -- the queue grows by at most the number of targets, and that much room is used up
      have hgrow := Problem.length_enqueue_le rest (P.targets g n)
      have hdrop : A.room (P.step g s n rest).produced n * (P.targets g n).length +
          (P.targets g n).length ≤ A.room s.produced n * (P.targets g n).length := by
        rw [← Nat.succ_mul]
        exact Nat.mul_le_mul_right _ (hs.room_step_lt rest hn hsame)
      have hfall := sum_map_add_le
        (Graph.mem_nodeIds.mpr (Graph.contains_of_node? hn)) hle hdrop
      rw [Problem.queue_step_of_ne hn hsame]
      omega

/-! ### Runs within the allowance -/

/-- As many steps as the potential are enough. -/
theorem Climbing.truncated_iterate (hs : A.Climbing s) {limit : Nat}
    (hlimit : A.potential s ≤ limit) : (P.iterate g limit s).truncated = s.truncated := by
  induction limit generalizing s with
  | zero =>
    have hnil : s.queue = [] := by
      unfold potential at hlimit
      exact List.eq_nil_of_length_eq_zero (by omega)
    rw [Problem.iterate_of_nil hnil]
  | succ limit ih =>
    cases hq : s.queue with
    | nil => rw [Problem.iterate_of_nil hq]
    | cons n rest =>
      have hfall := hs.potential_step_lt hq
      rw [Problem.iterate_succ_of_cons hq, ih (hs.step n rest) (by omega), Problem.truncated_step]

omit [DecidableEq Fact] in
variable (A) in
/-- At the start there is room for as many steps as the allowance says. -/
theorem potential_start_le : A.potential (P.start g) ≤ P.allowance g A.height := by
  have hsum : (g.nodeIds.map fun n => A.room (P.start g).produced n * (P.targets g n).length).sum ≤
      A.height * (g.nodeIds.map fun n => (P.targets g n).length).sum := by
    rw [← List.sum_map_mul_left]
    exact List.sum_le_sum fun n _ => Nat.mul_le_mul_right _ (A.room_le_height _ n)
  have hqueue : (P.start g).queue.length = g.nodeCount := by
    simp [Problem.start, Graph.nodeIds]
  rw [potential, Problem.allowance, List.length_flatMap, hqueue]
  exact Nat.add_le_add_left hsum _

variable (A) in
/-- **The allowance is enough**: an ascending problem is solved without truncation. -/
theorem truncated_solve {limit : Nat} (hlimit : P.allowance g A.height ≤ limit) :
    (P.solve g limit).truncated = false :=
  A.climbing_start.truncated_iterate ((A.potential_start_le).trans hlimit)

end Ascent

end ProgramGraph.DataFlow
