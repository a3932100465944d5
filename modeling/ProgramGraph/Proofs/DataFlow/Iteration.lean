import Mathlib.Data.List.Basic
import Mathlib.Data.Option.Basic
import ProgramGraph.DataFlow.Problem
import ProgramGraph.Proofs.Graph.Adjacency

/-!
# Steps and runs of a data flow iteration

What one step does to each part of the state, and what follows for a whole run:

* `iterate_induction` turns a property that steps keep into a property of the last state;
* `produces_iterate` reduces a property of all facts, at any time, to one question about the fact
  that a node produces from the others.

A solution has a fact at every `Point`, before and after each node, whichever way the facts flow.
-/

namespace ProgramGraph.DataFlow

universe u

variable {Fact : Type u} {P : Problem Fact} {g : Graph}

namespace Problem

/-! ### The queue -/

/-- Nodes are queued beside those that are. -/
theorem mem_enqueue {queue ns : List NodeId} {m : NodeId} :
    m ∈ enqueue queue ns ↔ m ∈ queue ∨ m ∈ ns := by
  induction ns generalizing queue with
  | nil => simp [enqueue]
  | cons n ns ih =>
    have hcons : enqueue queue (n :: ns) =
        enqueue (if n ∈ queue then queue else queue ++ [n]) ns := rfl
    rw [hcons, ih]
    split <;> simp only [List.mem_append, List.mem_cons, List.not_mem_nil, or_false] <;> grind

/-- A node is queued once at most. -/
theorem length_enqueue_le (queue ns : List NodeId) :
    (enqueue queue ns).length ≤ queue.length + ns.length := by
  induction ns generalizing queue with
  | nil => simp [enqueue]
  | cons n ns ih =>
    have h := ih (if n ∈ queue then queue else queue ++ [n])
    have hlen : (if n ∈ queue then queue else queue ++ [n]).length ≤ queue.length + 1 := by
      split <;> simp
    simp only [List.length_cons]
    calc (enqueue queue (n :: ns)).length
        ≤ (if n ∈ queue then queue else queue ++ [n]).length + ns.length := h
      _ ≤ queue.length + (ns.length + 1) := by omega

/-! ### What arrives at a node -/

variable (P g) in
/-- The fact that a node produces when each node produces the given facts. -/
def producedAt (produced : Array Fact) (n : NodeId) (node : Node) : Fact :=
  P.transfer n node (P.arrivingAt g produced n)

/-- Frame: what arrives at a node depends only on what its sources produce. -/
theorem arrivingAt_setIfInBounds_of_notMem {produced : Array Fact} {n m : NodeId}
    (h : n ∉ P.sources g m) (fact : Fact) :
    P.arrivingAt g (produced.setIfInBounds n.index fact) m = P.arrivingAt g produced m := by
  rw [arrivingAt, arrivingAt, List.filterMap_congr fun p hp => ?_]
  have hne : n.index ≠ p.index := fun heq => h (by cases n; cases p; simp_all)
  exact Array.getElem?_setIfInBounds_ne hne

/-- As many facts arrive at a node as it has sources, if there is a fact for every node. -/
theorem exists_facts_arrivingAt {produced : Array Fact} (hsize : produced.size = g.nodeCount)
    (n : NodeId) : ∃ facts : List Fact,
      (P.sources g n).map (fun m => produced[m.index]?) = facts.map some ∧
        P.arrivingAt g produced n = P.meetAll g facts := by
  have key : ∀ ms : List NodeId, (∀ m ∈ ms, g.contains m = true) →
      ms.map (fun m => produced[m.index]?) =
        (ms.filterMap fun m => produced[m.index]?).map some := by
    intro ms
    induction ms with
    | nil => exact fun _ => rfl
    | cons m ms ih =>
      intro hms
      have hm : m.index < produced.size := by
        rw [hsize]
        exact Graph.contains_iff.mp (hms m List.mem_cons_self)
      have hfact : produced[m.index]? = some produced[m.index] := Array.getElem?_eq_getElem hm
      rw [List.map_cons, ih fun p hp => hms p (List.mem_cons_of_mem m hp),
        List.filterMap_cons, hfact, List.map_cons]
  exact ⟨_, key _ fun _ hm => Graph.contains_of_mem_adjacent hm, rfl⟩

/-! ### What one step does -/

/-- Writing the fact that is already there. -/
private theorem setIfInBounds_eq_self {facts : Array Fact} {i : Nat} {fact : Fact}
    (h : facts[i]? = some fact) : facts.setIfInBounds i fact = facts := by
  obtain ⟨hlt, heq⟩ := Array.getElem?_eq_some_iff.mp h
  rw [← heq, Array.setIfInBounds, dif_pos hlt, Array.set_getElem_self]

/-- Facts are stored under the index of their node, and no two nodes share one. -/
private theorem getElem?_setIfInBounds_index {facts : Array Fact} {n m : NodeId} {fact : Fact}
    (hn : g.contains n = true) (hsize : facts.size = g.nodeCount) :
    (facts.setIfInBounds n.index fact)[m.index]? =
      if m = n then some fact else facts[m.index]? := by
  split
  · rename_i heq
    rw [heq]
    exact Array.getElem?_setIfInBounds_self_of_lt (by rw [hsize]; exact Graph.contains_iff.mp hn)
  · rename_i hne
    refine Array.getElem?_setIfInBounds_ne fun heq => hne ?_
    cases n
    cases m
    exact congrArg NodeId.mk heq.symm

section Step

variable [DecidableEq Fact] {s : Iteration Fact} {n : NodeId} {rest : List NodeId} {node : Node}

/-- The fact that arrives is stored. -/
theorem arriving_step (h : g.node? n = some node) :
    (P.step g s n rest).arriving =
      s.arriving.setIfInBounds n.index (P.arrivingAt g s.produced n) := by
  simp [step, h]

/-- The fact that the node produces is stored, whether or not it changed. -/
theorem produced_step (h : g.node? n = some node) :
    (P.step g s n rest).produced =
      s.produced.setIfInBounds n.index (P.producedAt g s.produced n node) := by
  simp only [step, h, producedAt]
  split
  · rfl
  · -- an unchanged fact is not written, and writing it would make no difference
    rename_i hsame
    exact (setIfInBounds_eq_self (not_not.mp hsame)).symm

theorem produced_step_of_eq (h : g.node? n = some node)
    (hsame : s.produced[n.index]? = some (P.producedAt g s.produced n node)) :
    (P.step g s n rest).produced = s.produced := by
  rw [produced_step h, setIfInBounds_eq_self hsame]

/-- A node whose fact stays as it was queues nothing. -/
theorem queue_step_of_eq (h : g.node? n = some node)
    (hsame : s.produced[n.index]? = some (P.producedAt g s.produced n node)) :
    (P.step g s n rest).queue = rest := by
  simp only [producedAt] at hsame
  simp [step, h, hsame]

/-- A node whose fact changes queues the nodes it flows to. -/
theorem queue_step_of_ne (h : g.node? n = some node)
    (hne : s.produced[n.index]? ≠ some (P.producedAt g s.produced n node)) :
    (P.step g s n rest).queue = enqueue rest (P.targets g n) := by
  simp only [producedAt] at hne
  simp [step, h, hne]

/-- A step never sets the flag; only the limit does. -/
@[simp]
theorem truncated_step : (P.step g s n rest).truncated = s.truncated := by
  unfold step
  split <;> rfl

@[simp]
theorem iterations_step : (P.step g s n rest).iterations = s.iterations + 1 := by
  unfold step
  split <;> rfl

/-- A handle that does not resolve leaves the queue and changes nothing else. -/
theorem step_of_none (h : g.node? n = none) :
    P.step g s n rest = { s with queue := rest, iterations := s.iterations + 1 } := by
  simp [step, h]

/-- The arriving facts after a step, node by node. -/
theorem getElem?_arriving_step (h : g.node? n = some node) (hsize : s.arriving.size = g.nodeCount)
    (m : NodeId) : (P.step g s n rest).arriving[m.index]? =
      if m = n then some (P.arrivingAt g s.produced n) else s.arriving[m.index]? := by
  rw [arriving_step h, getElem?_setIfInBounds_index (Graph.contains_of_node? h) hsize]

/-- The produced facts after a step, node by node. -/
theorem getElem?_produced_step (h : g.node? n = some node) (hsize : s.produced.size = g.nodeCount)
    (m : NodeId) : (P.step g s n rest).produced[m.index]? =
      if m = n then some (P.producedAt g s.produced n node) else s.produced[m.index]? := by
  rw [produced_step h, getElem?_setIfInBounds_index (Graph.contains_of_node? h) hsize]

theorem size_arriving_step : (P.step g s n rest).arriving.size = s.arriving.size := by
  cases h : g.node? n with
  | none => rw [step_of_none h]
  | some node => rw [arriving_step h, Array.size_setIfInBounds]

theorem size_produced_step : (P.step g s n rest).produced.size = s.produced.size := by
  cases h : g.node? n with
  | none => rw [step_of_none h]
  | some node => rw [produced_step h, Array.size_setIfInBounds]

/-- Nothing that is queued is lost. -/
theorem subset_queue_step : rest ⊆ (P.step g s n rest).queue := by
  intro m hm
  cases h : g.node? n with
  | none => simpa [step, h] using hm
  | some node =>
    by_cases hsame : s.produced[n.index]? = some (P.producedAt g s.produced n node)
    · rwa [queue_step_of_eq h hsame]
    · rw [queue_step_of_ne h hsame]
      exact mem_enqueue.mpr (Or.inl hm)

end Step

/-! ### From steps to runs -/

section Run

variable [DecidableEq Fact]

/-- An empty queue ends the iteration, whatever limit is left. -/
theorem iterate_of_nil {s : Iteration Fact} (hq : s.queue = []) (limit : Nat) :
    P.iterate g limit s = s := by
  cases limit <;> simp [iterate, hq]

@[simp]
theorem produced_iterate_zero (s : Iteration Fact) : (P.iterate g 0 s).produced = s.produced := by
  rw [iterate]
  split <;> rfl

@[simp]
theorem iterations_iterate_zero (s : Iteration Fact) :
    (P.iterate g 0 s).iterations = s.iterations := by
  rw [iterate]
  split <;> rfl

/-- Otherwise a step is taken with the first node of the queue. -/
theorem iterate_succ_of_cons {s : Iteration Fact} {n : NodeId} {rest : List NodeId}
    (hq : s.queue = n :: rest) (limit : Nat) :
    P.iterate g (limit + 1) s = P.iterate g limit (P.step g s n rest) := by
  simp [iterate, hq]

/-- **Induction over an iteration**: a property that steps keep holds of the state in which the
iteration ends. That state has an empty queue, or the limit was reached and only the flag is set. -/
theorem iterate_induction {I : Iteration Fact → Prop}
    (hstep : ∀ s n rest, s.queue = n :: rest → I s → I (P.step g s n rest)) (limit : Nat)
    {s : Iteration Fact} (hs : I s) : ∃ s', I s' ∧ s'.truncated = s.truncated ∧
      (s'.queue = [] ∧ P.iterate g limit s = s' ∨
        P.iterate g limit s = { s' with truncated := true }) := by
  induction limit generalizing s with
  | zero =>
    cases hq : s.queue with
    | nil => exact ⟨s, hs, rfl, Or.inl ⟨hq, iterate_of_nil hq 0⟩⟩
    | cons n rest => exact ⟨s, hs, rfl, Or.inr (by simp [iterate, hq])⟩
  | succ limit ih =>
    cases hq : s.queue with
    | nil => exact ⟨s, hs, rfl, Or.inl ⟨hq, iterate_of_nil hq _⟩⟩
    | cons n rest =>
      obtain ⟨s', hI, htrunc, hend⟩ := ih (hstep s n rest hq hs)
      rw [iterate_succ_of_cons hq]
      exact ⟨s', hI, htrunc.trans truncated_step, hend⟩

/-- An iteration that is not truncated ends with an empty queue, and what steps keep holds there. -/
theorem iterate_of_not_truncated {I : Iteration Fact → Prop}
    (hstep : ∀ s n rest, s.queue = n :: rest → I s → I (P.step g s n rest)) {limit : Nat}
    {s : Iteration Fact} (hs : I s) (ht : (P.iterate g limit s).truncated = false) :
    I (P.iterate g limit s) ∧ (P.iterate g limit s).queue = [] := by
  obtain ⟨s', hI, -, ⟨hq, heq⟩ | heq⟩ := iterate_induction hstep limit hs
  · rw [heq]
    exact ⟨hI, hq⟩
  · rw [heq] at ht
    cases ht

end Run

/-! ### Properties of the produced facts -/

/-- Every fact that is produced satisfies a property of its node. -/
def Produces (I : NodeId → Fact → Prop) (s : Iteration Fact) : Prop :=
  ∀ n fact, s.produced[n.index]? = some fact → I n fact

/-- What holds of the initial fact holds of all facts at the start. -/
theorem produces_start {I : NodeId → Fact → Prop} (h : ∀ n, I n (P.initial g)) :
    Produces I (P.start g) := by
  intro n fact hfact
  simp only [start, Array.getElem?_replicate] at hfact
  split at hfact
  · cases hfact
    exact h n
  · cases hfact

/-- A step keeps a property that a node's fact inherits from the facts produced so far. -/
theorem Produces.step [DecidableEq Fact] {I : NodeId → Fact → Prop} {s : Iteration Fact}
    (hs : Produces I s) (hsize : s.produced.size = g.nodeCount) {n : NodeId} {rest : List NodeId}
    (h : ∀ node, g.node? n = some node → I n (P.producedAt g s.produced n node)) :
    Produces I (P.step g s n rest) := by
  intro m fact hfact
  cases hn : g.node? n with
  | none =>
    rw [step_of_none hn] at hfact
    exact hs m fact hfact
  | some node =>
    rw [getElem?_produced_step hn hsize] at hfact
    split at hfact
    · rename_i heq
      cases hfact
      rw [heq]
      exact h node hn
    · exact hs m fact hfact

/-- **Induction over the facts of an iteration**: a property of the initial fact that every node's
fact inherits from the facts produced so far holds of all facts at any time. -/
theorem produces_iterate [DecidableEq Fact] {I : NodeId → Fact → Prop}
    (hinitial : ∀ n, I n (P.initial g))
    (hinherit : ∀ s n node, s.produced.size = g.nodeCount → g.node? n = some node →
      Produces I s → I n (P.producedAt g s.produced n node)) (limit : Nat) :
    (P.iterate g limit (P.start g)).produced.size = g.nodeCount ∧
      Produces I (P.iterate g limit (P.start g)) := by
  have hstep : ∀ s n rest, s.queue = n :: rest →
      s.produced.size = g.nodeCount ∧ Produces I s →
      (P.step g s n rest).produced.size = g.nodeCount ∧ Produces I (P.step g s n rest) := by
    rintro s n rest - ⟨hsize, hs⟩
    exact ⟨size_produced_step.trans hsize,
      hs.step hsize fun node hn => hinherit s n node hsize hn hs⟩
  obtain ⟨s, hs, -, ⟨-, heq⟩ | heq⟩ := iterate_induction hstep limit
    ⟨by simp [start], produces_start hinitial⟩
  · rw [heq]
    exact hs
  · rw [heq]
    exact hs

/-! ### The facts of a solution -/

section Solve

variable [DecidableEq Fact] {limit : Nat}

@[simp]
theorem truncated_solve :
    (P.solve g limit).truncated = (P.iterate g limit (P.start g)).truncated := rfl

/-- Forward, facts arrive at entry. -/
theorem before?_solve_forward (hd : P.direction = .forward) (n : NodeId) :
    (P.solve g limit).before? n = (P.iterate g limit (P.start g)).arriving[n.index]? := by
  simp [solve, solution, Solution.before?, hd]

/-- Forward, facts are produced at exit. -/
theorem after?_solve_forward (hd : P.direction = .forward) (n : NodeId) :
    (P.solve g limit).after? n = (P.iterate g limit (P.start g)).produced[n.index]? := by
  simp [solve, solution, Solution.after?, hd]

/-- Backward, facts are produced at entry. -/
theorem before?_solve_backward (hd : P.direction = .backward) (n : NodeId) :
    (P.solve g limit).before? n = (P.iterate g limit (P.start g)).produced[n.index]? := by
  simp [solve, solution, Solution.before?, hd]

/-- Backward, facts arrive at exit. -/
theorem after?_solve_backward (hd : P.direction = .backward) (n : NodeId) :
    (P.solve g limit).after? n = (P.iterate g limit (P.start g)).arriving[n.index]? := by
  simp [solve, solution, Solution.after?, hd]

end Solve

/-! ### Iterations without a limit -/

section NoLimit

variable [DecidableEq Fact]

theorem next_of_cons {s : Iteration Fact} {n : NodeId} {rest : List NodeId}
    (hq : s.queue = n :: rest) : P.next g s = P.step g s n rest := by
  rw [next, hq]

theorem iterateToEnd_of_nil {s : Iteration Fact} (hq : s.queue = []) :
    P.iterateToEnd g s = some s := by
  rw [iterateToEnd, hq, List.isEmpty_nil, if_pos rfl]

theorem iterateToEnd_of_cons {s : Iteration Fact} {n : NodeId} {rest : List NodeId}
    (hq : s.queue = n :: rest) :
    P.iterateToEnd g s = P.iterateToEnd g (P.step g s n rest) := by
  rw [iterateToEnd, hq, List.isEmpty_cons, if_neg Bool.false_ne_true, Function.comp_apply,
    next_of_cons hq]

/-- Without a limit an iteration ends as with one that is large enough. -/
theorem iterateToEnd_eq_some_iff {s t : Iteration Fact} :
    P.iterateToEnd g s = some t ↔ ∃ limit, P.iterate g limit s = t ∧ t.queue = [] := by
  constructor
  · intro h
    refine iterateToEnd.partial_correctness P g
      (fun s t => ∃ limit, P.iterate g limit s = t ∧ t.queue = []) ?_ s t h
    intro rest ih s t hrest
    cases hq : s.queue with
    | nil =>
      rw [hq, List.isEmpty_nil, if_pos rfl] at hrest
      obtain rfl := Option.some.inj hrest
      exact ⟨0, iterate_of_nil hq 0, hq⟩
    | cons n queue =>
      rw [hq, List.isEmpty_cons, if_neg Bool.false_ne_true, Function.comp_apply,
        next_of_cons hq] at hrest
      obtain ⟨limit, heq, hend⟩ := ih _ _ hrest
      exact ⟨limit + 1, (iterate_succ_of_cons hq limit).trans heq, hend⟩
  · rintro ⟨limit, rfl, hend⟩
    induction limit generalizing s with
    | zero =>
      cases hq : s.queue with
      | nil => rw [iterateToEnd_of_nil hq, iterate_of_nil hq]
      | cons n rest => simp [iterate, hq] at hend
    | succ limit ih =>
      cases hq : s.queue with
      | nil => rw [iterateToEnd_of_nil hq, iterate_of_nil hq]
      | cons n rest =>
        rw [iterate_succ_of_cons hq] at hend ⊢
        rw [iterateToEnd_of_cons hq]
        exact ih hend

/-- A run is truncated exactly if nodes are still queued in the end. -/
theorem truncated_iterate_iff {s : Iteration Fact} (hs : s.truncated = false) (limit : Nat) :
    (P.iterate g limit s).truncated = false ↔ (P.iterate g limit s).queue = [] := by
  induction limit generalizing s with
  | zero => cases hq : s.queue <;> simp [iterate, hq, hs]
  | succ limit ih =>
    cases hq : s.queue with
    | nil => rw [iterate_of_nil hq]; simp [hs, hq]
    | cons n rest =>
      rw [iterate_succ_of_cons hq]
      exact ih (truncated_step.trans hs)

/-- **Without a budget** a problem has the solution that a large enough limit gives, and none if no
limit is large enough. -/
theorem solveWithin_none_eq_some_iff {S : Solution Fact} :
    P.solveWithin g none = some S ↔ ∃ limit, P.solve g limit = S ∧ S.truncated = false := by
  rw [solveWithin, Option.map_eq_some_iff]
  constructor
  · rintro ⟨t, ht, rfl⟩
    obtain ⟨limit, rfl, hend⟩ := iterateToEnd_eq_some_iff.mp ht
    exact ⟨limit, rfl, (truncated_iterate_iff rfl limit).mpr hend⟩
  · rintro ⟨limit, rfl, hlimit⟩
    have hend := (truncated_iterate_iff (s := P.start g) rfl limit).mp hlimit
    exact ⟨_, iterateToEnd_eq_some_iff.mpr ⟨limit, rfl, hend⟩, rfl⟩

end NoLimit

end Problem

/-! ### Points -/

/-- A place in a graph: before or after a node. -/
inductive Point where
  | before (n : NodeId)
  | after (n : NodeId)

/-- The node that the place is at. -/
def Point.node : Point → NodeId
  | before n => n
  | after n => n

/-- The fact of a solution at a point. -/
def Solution.fact? {Fact : Type u} (S : Solution Fact) : Point → Option Fact
  | .before n => S.before? n
  | .after n => S.after? n

/-- At a point of a solution stands what arrives at the node, or what it produces. -/
theorem Problem.fact?_solve [DecidableEq Fact] (P : Problem Fact) (g : Graph) (x : Point) :
    (∀ limit, (P.solve g limit).fact? x =
        (P.iterate g limit (P.start g)).arriving[x.node.index]?) ∨
      ∀ limit, (P.solve g limit).fact? x =
        (P.iterate g limit (P.start g)).produced[x.node.index]? := by
  cases hd : P.direction <;> cases x
  · exact Or.inl fun _ => before?_solve_forward hd _
  · exact Or.inr fun _ => after?_solve_forward hd _
  · exact Or.inr fun _ => before?_solve_backward hd _
  · exact Or.inl fun _ => after?_solve_backward hd _

end ProgramGraph.DataFlow
