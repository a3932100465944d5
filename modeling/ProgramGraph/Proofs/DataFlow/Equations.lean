import ProgramGraph.DataFlow.StepCount
import ProgramGraph.Graph.Shape
import ProgramGraph.Proofs.DataFlow.Iteration

/-!
# A finished iteration solves the data flow equations

`Problem.SolvesAt` states the two equations of a node about a solution, and `Problem.solve_solvesAt`
proves them at every node whenever the iteration was not truncated. Nothing is asked of the problem:
the meet need not be associative and the transfer need not be monotone. What is asked of the graph
is `Graph.Consistent` in the direction of the flow, since a changed fact is announced along one list
and read along the other.

The invariant is `Problem.Settled`: a node that is not queued satisfies its equations. One step
keeps it (`Settled.step`), because a step can only disturb the nodes that read the fact it writes,
and these are queued.
-/

namespace ProgramGraph.DataFlow.Problem

universe u

variable {Fact : Type u} {P : Problem Fact} {g : Graph}

/-! ### The invariant: nodes off the queue satisfy their equations -/

variable (P g) in
/-- There is a fact on each side of every node, and the two facts of a node that is not queued
satisfy its equations. -/
structure Settled (s : Iteration Fact) : Prop where
  arriving_size : s.arriving.size = g.nodeCount
  produced_size : s.produced.size = g.nodeCount
  arriving_eq : ∀ n, g.contains n = true → n ∉ s.queue →
    s.arriving[n.index]? = some (P.arrivingAt g s.produced n)
  produced_eq : ∀ n node, g.node? n = some node → n ∉ s.queue →
    s.produced[n.index]? = some (P.producedAt g s.produced n node)

/-- At the start every node is queued, so that no equation has to hold yet. -/
theorem settled_start : P.Settled g (P.start g) where
  arriving_size := by simp [start]
  produced_size := by simp [start]
  arriving_eq n hn hq := absurd (Graph.mem_nodeIds.mpr hn) hq
  produced_eq n node hn hq := absurd (Graph.mem_nodeIds.mpr (Graph.contains_of_node? hn)) hq

section Settled

variable [DecidableEq Fact] {s : Iteration Fact} {n : NodeId} {rest : List NodeId}

/-- What arrives at a node that is not queued after a step is what arrived before it: either the
step wrote no new fact, or the node does not read it. -/
theorem arrivingAt_step_of_notMem_queue (hc : g.Consistent P.direction) {node : Node}
    (hn : g.node? n = some node) {m : NodeId} (hm : m ∉ (P.step g s n rest).queue) :
    P.arrivingAt g (P.step g s n rest).produced m = P.arrivingAt g s.produced m := by
  by_cases hsame : s.produced[n.index]? = some (P.producedAt g s.produced n node)
  · rw [produced_step_of_eq hn hsame]
  · rw [queue_step_of_ne hn hsame] at hm
    rw [produced_step hn]
    refine arrivingAt_setIfInBounds_of_notMem (fun hsource => hm ?_) _
    exact mem_enqueue.mpr (Or.inr (Graph.consistent_iff_adjacent.mp hc m n hsource))

/-- **A step keeps the invariant.** -/
theorem Settled.step (hs : P.Settled g s) (hc : g.Consistent P.direction)
    (hq : s.queue = n :: rest) : P.Settled g (P.step g s n rest) := by
  have hold : ∀ m, m ≠ n → m ∉ (P.step g s n rest).queue → m ∉ s.queue := by
    intro m hmn hm
    rw [hq, List.mem_cons, not_or]
    exact ⟨hmn, fun hrest => hm (subset_queue_step hrest)⟩
  cases hn : g.node? n with
  | none =>
    -- the handle is no node of the graph, so no equation speaks of it
    have hne : ∀ m node, g.node? m = some node → m ≠ n := by
      rintro m node hm rfl
      rw [hn] at hm
      cases hm
    rw [step_of_none hn] at hold ⊢
    refine ⟨hs.arriving_size, hs.produced_size, fun m hm hmq => ?_, fun m node hm hmq => ?_⟩
    · obtain ⟨node, hnode⟩ := Graph.exists_node?_of_contains hm
      exact hs.arriving_eq m hm (hold m (hne m node hnode) hmq)
    · exact hs.produced_eq m node hm (hold m (hne m node hm) hmq)
  | some node =>
    refine ⟨size_arriving_step.trans hs.arriving_size, size_produced_step.trans hs.produced_size,
      fun m hm hmq => ?_, fun m mnode hm hmq => ?_⟩
    · rw [arrivingAt_step_of_notMem_queue hc hn hmq,
        getElem?_arriving_step hn hs.arriving_size]
      split
      · rename_i heq
        rw [heq]
      · rename_i hmn
        exact hs.arriving_eq m hm (hold m hmn hmq)
    · rw [producedAt, arrivingAt_step_of_notMem_queue hc hn hmq, ← producedAt,
        getElem?_produced_step hn hs.produced_size]
      split
      · rename_i heq
        rw [heq, hn] at hm
        cases hm
        rw [heq]
      · rename_i hmn
        exact hs.produced_eq m mnode hm (hold m hmn hmq)

/-- An iteration that is not truncated leaves every node with facts that satisfy its equations. -/
theorem settled_iterate {limit : Nat} (hc : g.Consistent P.direction)
    (ht : (P.iterate g limit (P.start g)).truncated = false) :
    P.Settled g (P.iterate g limit (P.start g)) ∧
      (P.iterate g limit (P.start g)).queue = [] :=
  iterate_of_not_truncated (fun _ _ _ hq hs => hs.step hc hq) settled_start ht

end Settled

/-! ### The equations of a solution -/

variable (P g) in
/-- The equations of a node: on the side where facts arrive stands the meet, from left to right, of
the facts that its neighbours on that side produce, or the boundary fact if it has none, and on the
other side the node's transfer of it. -/
def SolvesAt (S : Solution Fact) (n : NodeId) (node : Node) : Prop :=
  match P.direction with
  | .forward => ∃ facts : List Fact,
      (g.predecessors n).map S.after? = facts.map some ∧
        S.before? n = some (P.meetAll g facts) ∧
        S.after? n = some (P.transfer n node (P.meetAll g facts))
  | .backward => ∃ facts : List Fact,
      (g.successors n).map S.before? = facts.map some ∧
        S.after? n = some (P.meetAll g facts) ∧
        S.before? n = some (P.transfer n node (P.meetAll g facts))

/-- **A finished iteration solves the equations at every node**, for every problem and every limit
on the steps, on graphs whose lists agree in the direction of the flow. -/
theorem solve_solvesAt [DecidableEq Fact] (P : Problem Fact) (g : Graph) (limit : Nat)
    (hc : g.Consistent P.direction) (ht : (P.solve g limit).truncated = false) (n : NodeId)
    (node : Node) (hn : g.node? n = some node) : P.SolvesAt g (P.solve g limit) n node := by
  obtain ⟨hs, hq⟩ := settled_iterate hc ht
  have hnq : n ∉ (P.iterate g limit (P.start g)).queue := by
    rw [hq]
    exact List.not_mem_nil
  have harriving := hs.arriving_eq n (Graph.contains_of_node? hn) hnq
  have hproduced := hs.produced_eq n node hn hnq
  obtain ⟨facts, hfacts, hmeet⟩ := exists_facts_arrivingAt (P := P) hs.produced_size n
  rw [producedAt, hmeet] at hproduced
  rw [hmeet] at harriving
  unfold SolvesAt
  cases hd : P.direction with
  | forward =>
    refine ⟨facts, ?_, ?_, ?_⟩
    · rw [sources, hd] at hfacts
      exact (List.map_congr_left fun m _ => after?_solve_forward hd m).trans hfacts
    · rw [before?_solve_forward hd, harriving]
    · rw [after?_solve_forward hd, hproduced]
  | backward =>
    refine ⟨facts, ?_, ?_, ?_⟩
    · rw [sources, hd] at hfacts
      exact (List.map_congr_left fun m _ => before?_solve_backward hd m).trans hfacts
    · rw [after?_solve_backward hd, harriving]
    · rw [before?_solve_backward hd, hproduced]

/-- Counting backward in the complete graph on two nodes, where every node has a self loop and the
counts go round until they reach the cap. -/
theorem solve_solvesAt_complete :
    let P := StepCount.problem .backward .greatest 5 0 0
    let g := Graph.addShape ∅ .complete 2 "n"
    g.Consistent P.direction ∧ (P.solve g 40).truncated = false ∧
      ∃ node, g.node? ⟨1⟩ = some node ∧ P.SolvesAt g (P.solve g 40) ⟨1⟩ node :=
  ⟨by decide, by decide, _, rfl, solve_solvesAt _ _ _ (by decide) (by decide) _ _ rfl⟩

end ProgramGraph.DataFlow.Problem
