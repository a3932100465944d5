import Mathlib.Data.Fin.VecNotation
import Mathlib.Order.Fin.Basic
import Mathlib.Order.KrullDimension
import ProgramGraph.Proofs.DataFlow.Equations
import ProgramGraph.Proofs.DataFlow.StepBound

/-!
# Monotone problems and their initial fact

A problem is monotone when its facts form a lattice in which the meet is the greatest lower bound,
and the transfers are monotone. If moreover the lattice has a finite height, one might expect every
iteration to end. Whether it does depends on the initial fact.

An iteration ends when the facts of all nodes start out in one direction: then they keep to it, and
the height bounds how far they can go (`Problem.OneSided`). If the initial fact is the greatest or
the least one, this is so for every problem and every graph.

No other initial fact is safe (`monotone_ends_iff`). In between there is room for a *pulse*: a node
whose fact first falls and then comes back to the initial one, since what arrives there rises only
later. On a cycle of three nodes the fall travels around, with the recovery behind it, and never
dies out (`pulseGraph`). The facts that occur are three, in whatever lattice, so it is enough to
follow them in the one on three numbers; iterations over other facts are its images
(`Embedding.iterate_map`).
-/

namespace ProgramGraph.DataFlow

universe u v

/-! ### Monotone problems -/

/-- The meet is the greatest lower bound, and all transfers are monotone. -/
structure Problem.IsMonotone {Fact : Type u} [Lattice Fact] (P : Problem Fact) : Prop where
  meet_eq : ∀ a b, P.meet a b = a ⊓ b
  transfer_mono : ∀ n node, Monotone (P.transfer n node)

/-- Strictly ascending sequences of facts have at most so many steps. -/
def HeightAtMost (Fact : Type u) [Preorder Fact] (height : Nat) : Prop :=
  ∀ p : LTSeries Fact, p.length ≤ height

section Order

variable {Fact : Type u} [Preorder Fact] {height : Nat}

/-- Upside down, a lattice is as high. -/
theorem HeightAtMost.dual (h : HeightAtMost Fact height) : HeightAtMost Factᵒᵈ height :=
  fun p => h p.reverse

/-- No fact stands above more than `height` others in a row. -/
theorem HeightAtMost.height_le (h : HeightAtMost Fact height) (a : Fact) :
    Order.height a ≤ height :=
  Order.height_le fun p _ => by exact_mod_cast h p

/-- In a lattice of finite height a greater fact has a greater height. -/
theorem HeightAtMost.toNat_height_lt (h : HeightAtMost Fact height) {a b : Fact} (hab : a < b) :
    (Order.height a).toNat < (Order.height b).toNat := by
  have hfin : ∀ c : Fact, Order.height c ≠ ⊤ := fun c =>
    ne_top_of_le_ne_top (ENat.natCast_ne_top height) (h.height_le c)
  have hlt := Order.height_strictMono hab (lt_top_iff_ne_top.mpr (hfin a))
  rw [← ENat.natCast_toNat (hfin a), ← ENat.natCast_toNat (hfin b)] at hlt
  exact_mod_cast hlt

theorem HeightAtMost.toNat_height_le (h : HeightAtMost Fact height) (a : Fact) :
    (Order.height a).toNat ≤ height :=
  ENat.toNat_le_of_le_natCast (h.height_le a)

end Order

/-! ### Facts that start out in one direction -/

namespace Ascent

variable {Fact : Type u} {P : Problem Fact} {g : Graph} {height : Nat}

/-- A problem ascends from an initial fact that lies below the boundary fact and below what every
node makes of it. -/
noncomputable def ofInitialLe [PartialOrder Fact] (hheight : HeightAtMost Fact height)
    (hmeet : ∀ {a a' b b'}, a ≤ a' → b ≤ b' → P.meet a b ≤ P.meet a' b')
    (htransfer : ∀ n node, Monotone (P.transfer n node))
    (hself : P.initial g ≤ P.meet (P.initial g) (P.initial g))
    (hboundary : P.initial g ≤ P.boundary g)
    (hfirst : ∀ n node, g.node? n = some node → P.initial g ≤ P.transfer n node (P.initial g)) :
    Ascent P g where
  le a b := a ≤ b
  Attained a := P.initial g ≤ a
  rank a := (Order.height a).toNat
  height := height
  le_refl _ := le_rfl
  le_trans hab hbc := hab.trans hbc
  meet_le_meet := hmeet
  transfer_le_transfer n node hab := htransfer n node hab
  attained_initial := le_rfl
  attained_boundary := hboundary
  attained_meet ha hb := hself.trans (hmeet ha hb)
  attained_transfer hn ha := (hfirst _ _ hn).trans (htransfer _ _ ha)
  initial_le ha := ha
  rank_lt_rank _ _ hab hne := hheight.toNat_height_lt (lt_of_le_of_ne hab hne)
  rank_le_height {a} _ := hheight.toNat_height_le a

end Ascent

namespace Problem

variable {Fact : Type u} [Lattice Fact] (P : Problem Fact) (g : Graph)

/-- The boundary fact and what the nodes make of the initial fact lie on the same side of it. -/
def OneSided : Prop :=
  (P.initial g ≤ P.boundary g ∧
    ∀ n node, g.node? n = some node → P.initial g ≤ P.transfer n node (P.initial g)) ∨
  (P.boundary g ≤ P.initial g ∧
    ∀ n node, g.node? n = some node → P.transfer n node (P.initial g) ≤ P.initial g)

variable {P g}

/-- From the greatest fact there is only one way to go. -/
theorem oneSided_of_isTop (h : IsTop (P.initial g)) : P.OneSided g :=
  Or.inr ⟨h _, fun _ _ _ => h _⟩

/-- And likewise from the least. -/
theorem oneSided_of_isBot (h : IsBot (P.initial g)) : P.OneSided g :=
  Or.inl ⟨h _, fun _ _ _ => h _⟩

/-- **Facts that start out in one direction come to an end**, within the height of the lattice and
on every graph. -/
theorem IsMonotone.endsWithin [DecidableEq Fact] {height : Nat} (hP : P.IsMonotone)
    (hheight : HeightAtMost Fact height) (hside : P.OneSided g) :
    P.EndsWithin g (P.solve g (P.allowance g height)) height := by
  have hmeet : ∀ {a a' b b'}, a ≤ a' → b ≤ b' → P.meet a b ≤ P.meet a' b' := by
    intro a a' b b' ha hb
    rw [hP.meet_eq, hP.meet_eq]
    exact inf_le_inf ha hb
  have hself : P.meet (P.initial g) (P.initial g) = P.initial g := by rw [hP.meet_eq, inf_idem]
  rcases hside with ⟨hboundary, hfirst⟩ | ⟨hboundary, hfirst⟩
  · let A := Ascent.ofInitialLe hheight hmeet hP.transfer_mono hself.ge hboundary hfirst
    exact A.endsWithin rfl
  · -- the facts descend, so they ascend in the dual order
    let A : Ascent P g := @Ascent.ofInitialLe Fact P g height
      (inferInstanceAs (PartialOrder Factᵒᵈ)) hheight.dual (fun ha hb => hmeet ha hb)
      (fun n node _ _ hab => hP.transfer_mono n node hab) hself.le hboundary hfirst
    exact A.endsWithin rfl

end Problem

/-! ### Iterations that never end -/

namespace Problem

variable {Fact : Type u} [DecidableEq Fact] (P : Problem Fact) (g : Graph)

/-- The iteration ends after a finite number of steps. -/
def Ends : Prop :=
  ∃ limit, (P.solve g limit).truncated = false

variable {P g} in
/-- Without a budget there is a solution exactly if the iteration ends. -/
theorem isSome_solveWithin_none_iff : (P.solveWithin g none).isSome ↔ P.Ends g := by
  rw [Option.isSome_iff_exists]
  constructor
  · rintro ⟨S, hS⟩
    obtain ⟨limit, rfl, hlimit⟩ := solveWithin_none_eq_some_iff.mp hS
    exact ⟨limit, hlimit⟩
  · rintro ⟨limit, hlimit⟩
    exact ⟨_, solveWithin_none_eq_some_iff.mpr ⟨limit, rfl, hlimit⟩⟩

/-- The produced facts and the queue after a step, which depend on nothing else. -/
def advance (produced : Array Fact) (n : NodeId) (rest : List NodeId) :
    Array Fact × List NodeId :=
  let s := P.step g { arriving := #[], produced, queue := [] } n rest
  (s.produced, s.queue)

variable {P g}

/-- A step advances the produced facts and the queue. -/
theorem advance_eq (s : Iteration Fact) (n : NodeId) (rest : List NodeId) :
    P.advance g s.produced n rest =
      ((P.step g s n rest).produced, (P.step g s n rest).queue) := by
  unfold advance step
  cases g.node? n <;> rfl

/-- An iteration does not end if its facts and its queue stay among finitely many, and none of
these queues is empty. -/
theorem not_ends_of_trap (trap : List (Array Fact × List NodeId))
    (hstart : ((P.start g).produced, (P.start g).queue) ∈ trap)
    (hnext : ∀ p ∈ trap, ∃ n ∈ p.2.head?, P.advance g p.1 n p.2.tail ∈ trap) :
    ¬ P.Ends g := by
  rintro ⟨limit, hlimit⟩
  have hstep : ∀ s n rest, s.queue = n :: rest → (s.produced, s.queue) ∈ trap →
      ((P.step g s n rest).produced, (P.step g s n rest).queue) ∈ trap := by
    intro s n rest hq hs
    obtain ⟨n', hn', hmem⟩ := hnext _ hs
    simp only [hq, List.head?_cons, Option.mem_some_iff] at hn'
    subst hn'
    rwa [hq, List.tail_cons, advance_eq] at hmem
  obtain ⟨hend, hnil⟩ := iterate_of_not_truncated hstep hstart hlimit
  obtain ⟨n, hn, -⟩ := hnext _ hend
  rw [hnil] at hn
  cases hn

end Problem

/-! ### Renaming facts -/

/-- The facts of one problem are those of another under other names. -/
structure Embedding {α : Type u} {β : Type v} (P : Problem α) (Q : Problem β) (g : Graph) where
  rename : α → β
  injective : Function.Injective rename
  direction_eq : Q.direction = P.direction
  boundary_eq : Q.boundary g = rename (P.boundary g)
  initial_eq : Q.initial g = rename (P.initial g)
  meet_eq : ∀ a b, Q.meet (rename a) (rename b) = rename (P.meet a b)
  transfer_eq : ∀ n node a, g.node? n = some node →
    Q.transfer n node (rename a) = rename (P.transfer n node a)

namespace Embedding

variable {α : Type u} {β : Type v} {P : Problem α} {Q : Problem β} {g : Graph}
  (E : Embedding P Q g)

/-- Renames the facts of an iteration. -/
def map (s : Iteration α) : Iteration β :=
  { s with arriving := s.arriving.map E.rename, produced := s.produced.map E.rename }

/-- Renamed facts meet in the renamed meet. -/
theorem meetAll_map (facts : List α) :
    Q.meetAll g (facts.map E.rename) = E.rename (P.meetAll g facts) := by
  cases facts with
  | nil => exact E.boundary_eq
  | cons a facts =>
    rw [List.map_cons, Problem.meetAll, Problem.meetAll, List.foldl_map]
    exact List.foldl_hom E.rename E.meet_eq

theorem arrivingAt_map (produced : Array α) (n : NodeId) :
    Q.arrivingAt g (produced.map E.rename) n = E.rename (P.arrivingAt g produced n) := by
  rw [Problem.arrivingAt, Problem.arrivingAt, ← E.meetAll_map, List.map_filterMap,
    Problem.sources, Problem.sources, E.direction_eq]
  simp only [Array.getElem?_map]

variable [DecidableEq α] [DecidableEq β]

/-- A step of the renamed problem is the renamed step. -/
theorem step_map (s : Iteration α) (n : NodeId) (rest : List NodeId) :
    Q.step g (E.map s) n rest = E.map (P.step g s n rest) := by
  unfold Problem.step
  cases hn : g.node? n with
  | none => rfl
  | some node =>
    have hsame : ∀ fact : α, (s.produced.map E.rename)[n.index]? = some (E.rename fact) ↔
        s.produced[n.index]? = some fact := by
      intro fact
      rw [Array.getElem?_map, Option.map_eq_some_iff]
      exact ⟨fun ⟨a, ha, heq⟩ => by rw [ha, E.injective heq], fun h => ⟨fact, h, rfl⟩⟩
    have htargets : Q.targets g n = P.targets g n := by
      rw [Problem.targets, Problem.targets, E.direction_eq]
    simp only [map, E.arrivingAt_map, E.transfer_eq n node _ hn, hsame, htargets, ne_eq,
      Array.map_setIfInBounds]
    split
    · rw [Array.map_setIfInBounds]
    · rfl

/-- **An iteration over renamed facts is the renamed iteration.** -/
theorem iterate_map (limit : Nat) (s : Iteration α) :
    Q.iterate g limit (E.map s) = E.map (P.iterate g limit s) := by
  induction limit generalizing s with
  | zero =>
    have hq : (E.map s).queue = s.queue := rfl
    rw [Problem.iterate, Problem.iterate, hq]
    split <;> rfl
  | succ limit ih =>
    cases hq : s.queue with
    | nil =>
      have hq' : (E.map s).queue = [] := hq
      rw [Problem.iterate_of_nil hq, Problem.iterate_of_nil hq']
    | cons n rest =>
      have hq' : (E.map s).queue = n :: rest := hq
      rw [Problem.iterate_succ_of_cons hq, Problem.iterate_succ_of_cons hq', E.step_map, ih]

include E in
/-- Renaming facts does not change whether an iteration ends. -/
theorem ends_iff : Q.Ends g ↔ P.Ends g := by
  have hstart : Q.start g = E.map (P.start g) := by
    simp [Problem.start, map, E.initial_eq]
  refine exists_congr fun limit => ?_
  rw [Problem.truncated_solve, Problem.truncated_solve, hstart, E.iterate_map]
  rfl

end Embedding

/-! ### A pulse that travels around a cycle -/

/-- The boundary fact is `high`, and the first node turns this into the initial fact and everything
else into `low`; all other nodes pass on what arrives. -/
def pulse {Fact : Type u} [Lattice Fact] [DecidableEq Fact] (low initial high : Fact) :
    Problem Fact where
  name := "pulse"
  direction := .forward
  boundary _ := high
  initial _ := initial
  meet a b := a ⊓ b
  transfer n _ fact := if n = ⟨0⟩ then if high ⊓ fact = high then initial else low else fact

/-- The second node leads to the first, and this to the last of the other three, which lead around
from the last to the third. So the first node is taken from the queue before the fact of the second
is known. The property `step` lets only the first node count. -/
def pulseGraph : Graph :=
  let nodes := (List.range 5).foldl (fun g i => (g.addNode s!"n{i}").2) (∅ : Graph)
  let edges := [(1, 0), (0, 4), (4, 3), (3, 2), (2, 4)].foldl
    (fun g (s, t) => (g.connect s!"e{g.edgeCount}" ⟨s⟩ ⟨t⟩).2) nodes
  edges.setProperties [⟨1⟩, ⟨2⟩, ⟨3⟩, ⟨4⟩] "step" "0"

/-- The pulse is a monotone problem on every lattice. -/
theorem isMonotone_pulse {Fact : Type u} [Lattice Fact] [DecidableEq Fact]
    {low initial high : Fact} (h : low ≤ initial) : (pulse low initial high).IsMonotone := by
  refine ⟨fun _ _ => rfl, fun n node a b hab => ?_⟩
  simp only [pulse]
  split
  · by_cases ha : high ⊓ a = high
    · have hb : high ⊓ b = high := inf_eq_left.mpr ((inf_eq_left.mp ha).trans hab)
      rw [if_pos ha, if_pos hb]
    · rw [if_neg ha]
      split
      · exact h
      · exact le_rfl
  · exact hab

/-- The first twelve states of the pulse among three numbers. -/
def pulseTrap : List (Array (Fin 3) × List NodeId) :=
  (List.range 12).map fun limit =>
    let P := pulse (0 : Fin 3) 1 2
    let s := P.iterate pulseGraph limit (P.start pulseGraph)
    (s.produced, s.queue)

/-- The state after twelve steps is that after six. -/
theorem not_ends_pulse_fin : ¬ (pulse (0 : Fin 3) 1 2).Ends pulseGraph :=
  Problem.not_ends_of_trap pulseTrap (by decide +kernel) (by decide +kernel)

theorem strictMono_vec {Fact : Type u} [Preorder Fact] {low initial high : Fact}
    (hlow : low < initial) (hhigh : initial < high) : StrictMono ![low, initial, high] := by
  rw [Fin.strictMono_iff_lt_succ]
  intro i
  fin_cases i
  · exact hlow
  · exact hhigh

/-- A pulse runs through the same states between any three facts in a row. -/
def pulseEmbedding {Fact : Type u} [Lattice Fact] [DecidableEq Fact] {low initial high : Fact}
    (hlow : low < initial) (hhigh : initial < high) :
    Embedding (pulse (0 : Fin 3) 1 2) (pulse low initial high) pulseGraph where
  rename := ![low, initial, high]
  injective := (strictMono_vec hlow hhigh).injective
  direction_eq := rfl
  boundary_eq := rfl
  initial_eq := rfl
  meet_eq a b := ((strictMono_vec hlow hhigh).monotone.map_inf a b).symm
  transfer_eq n node a hn := by
    have hhigh' : high ⊓ ![low, initial, high] a = high ↔ (2 : Fin 3) ⊓ a = 2 := by
      rw [inf_eq_left, inf_eq_left]
      exact (strictMono_vec hlow hhigh).le_iff_le (a := 2)
    simp only [pulse, hhigh']
    split
    · split <;> rfl
    · rfl

/-- **Between two other facts an initial fact leaves room for an iteration that never ends.** -/
theorem not_ends_pulse {Fact : Type u} [Lattice Fact] [DecidableEq Fact] {low initial high : Fact}
    (hlow : low < initial) (hhigh : initial < high) : ¬ (pulse low initial high).Ends pulseGraph :=
  (pulseEmbedding hlow hhigh).ends_iff.not.mpr not_ends_pulse_fin

/-- Only the first node counts. -/
theorem stepOf_pulseGraph {n : NodeId} {node : Node} (hn : pulseGraph.node? n = some node) :
    StepCount.stepOf n node = if n = ⟨0⟩ then 1 else 0 := by
  have hall : ∀ m ∈ pulseGraph.nodeIds, ∀ node ∈ pulseGraph.node? m,
      StepCount.stepOf m node = if m = ⟨0⟩ then 1 else 0 := by decide +kernel
  exact hall n (Graph.mem_nodeIds.mpr (Graph.contains_of_node? hn)) node hn

/-- Counting upwards to two is a pulse among three numbers in the opposite order. -/
def countEmbedding : Embedding (pulse (0 : Fin 3) 1 2)
    (StepCount.problem .forward .greatest 2 0 1) pulseGraph where
  rename a := 2 - a.val
  injective := by decide
  direction_eq := rfl
  boundary_eq := rfl
  initial_eq := rfl
  meet_eq := by decide
  transfer_eq n node a hn := by
    simp only [StepCount.problem, pulse, stepOf_pulseGraph hn]
    split
    · revert a
      decide
    · omega

/-! ### Which initial facts are safe -/

/-- In a lattice a fact that is not the greatest has a greater one. -/
theorem exists_lt_of_not_isTop {Fact : Type u} [Lattice Fact] {a : Fact} (h : ¬ IsTop a) :
    ∃ b, a < b := by
  obtain ⟨b, hb⟩ := not_forall.mp h
  exact ⟨a ⊔ b, left_lt_sup.mpr hb⟩

/-- And one that is not the least has a smaller one. -/
theorem exists_gt_of_not_isBot {Fact : Type u} [Lattice Fact] {a : Fact} (h : ¬ IsBot a) :
    ∃ b, b < a := by
  obtain ⟨b, hb⟩ := not_forall.mp h
  exact ⟨a ⊓ b, inf_lt_left.mpr hb⟩

theorem consistent_pulseGraph (d : Direction) : pulseGraph.Consistent d := by
  cases d <;> decide +kernel

/-- **Whether a monotone problem over a lattice of finite height ends depends on its initial fact.**
It ends within the height if the facts start out in one direction. An initial fact with which every
monotone problem ends on every graph is the greatest or the least one. -/
theorem monotone_ends_iff {Fact : Type u} [Lattice Fact] [DecidableEq Fact] {height : Nat}
    (hheight : HeightAtMost Fact height) :
    (∀ (P : Problem Fact) (g : Graph), P.IsMonotone → P.OneSided g →
      P.EndsWithin g (P.solve g (P.allowance g height)) height) ∧
    ∀ initial : Fact,
      (∀ (P : Problem Fact) (g : Graph), P.IsMonotone → (∀ d, g.Consistent d) →
        P.initial g = initial → P.Ends g) ↔
      IsTop initial ∨ IsBot initial := by
  refine ⟨fun P g hP hside => hP.endsWithin hheight hside, fun initial => ⟨fun h => ?_, ?_⟩⟩
  · by_contra hno
    obtain ⟨htop, hbot⟩ := not_or.mp hno
    obtain ⟨high, hhigh⟩ := exists_lt_of_not_isTop htop
    obtain ⟨low, hlow⟩ := exists_gt_of_not_isBot hbot
    exact not_ends_pulse hlow hhigh
      (h (pulse low initial high) pulseGraph (isMonotone_pulse hlow.le) consistent_pulseGraph rfl)
  · rintro hextreme P g hP - rfl
    have hside : P.OneSided g :=
      hextreme.elim Problem.oneSided_of_isTop Problem.oneSided_of_isBot
    exact ⟨_, (hP.endsWithin hheight hside).truncated_eq⟩

/-- A chain of `n + 1` numbers has height `n`. -/
theorem heightAtMost_fin (n : Nat) : HeightAtMost (Fin (n + 1)) n := by
  intro p
  have hlt := p.length_lt_card
  rw [Fintype.card_fin] at hlt
  omega

/-- With the greatest of three numbers as initial fact, the pulse ends on the graph on which it does
not with the one in the middle. -/
theorem monotone_ends_iff_pulse :
    (pulse (0 : Fin 3) 2 2).EndsWithin pulseGraph
      ((pulse (0 : Fin 3) 2 2).solve pulseGraph
        ((pulse (0 : Fin 3) 2 2).allowance pulseGraph 2)) 2 ∧
    (IsTop (2 : Fin 3) ∨ IsBot (2 : Fin 3)) ∧ ¬ (IsTop (1 : Fin 3) ∨ IsBot (1 : Fin 3)) ∧
    ¬ (∀ (P : Problem (Fin 3)) (g : Graph), P.IsMonotone → (∀ d, g.Consistent d) →
      P.initial g = 1 → P.Ends g) := by
  have htop : IsTop (2 : Fin 3) := Fin.le_last
  have hmiddle : ¬ (IsTop (1 : Fin 3) ∨ IsBot (1 : Fin 3)) := by
    unfold IsTop IsBot
    decide
  exact ⟨(monotone_ends_iff (heightAtMost_fin 2)).1 _ _ (isMonotone_pulse (by decide))
      (Problem.oneSided_of_isTop htop), Or.inl htop, hmiddle,
    ((monotone_ends_iff (heightAtMost_fin 2)).2 1).not.mpr hmiddle⟩

/-- **A monotone problem over a lattice of finite height need not end.** Here the facts are three
numbers, the meet is the least of two numbers and the initial fact the one in the middle; or steps
are counted up to two. -/
theorem monotone_not_ends :
    HeightAtMost (Fin 3) 2 ∧ (pulse (0 : Fin 3) 1 2).IsMonotone ∧
    (∀ d, pulseGraph.Consistent d) ∧ ¬ (pulse (0 : Fin 3) 1 2).Ends pulseGraph ∧
    ¬ (StepCount.problem .forward .greatest 2 0 1).Ends pulseGraph :=
  ⟨heightAtMost_fin 2, isMonotone_pulse (by decide), consistent_pulseGraph, not_ends_pulse_fin,
    countEmbedding.ends_iff.not.mpr not_ends_pulse_fin⟩

end ProgramGraph.DataFlow
