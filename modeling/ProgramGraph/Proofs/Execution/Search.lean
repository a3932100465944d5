import Mathlib.Data.List.Basic
import ProgramGraph.Execution.Walk
import ProgramGraph.Proofs.Graph.Adjacency

/-!
# What entering a node does

`Execution.enter` does one of five things: it records a back edge, passes over a pair of node and
state that was processed before, stops at a budget, passes over a handle that does not resolve, or
processes the pair and enters the targets of its branches in turn. Here each case has its equation,
and the two parts of the trace that say where the search has been, the states of every node and the
back edges, have their lemmas.
-/

namespace ProgramGraph.Execution

universe u v

variable {State : Type u} {Memory : Type v}

/-! ### Traces -/

namespace Trace

variable {t : Trace State} {n m : NodeId} {s : State}

/-- A state is recorded behind those that its node has. -/
theorem statesAt_record : (t.record n s).statesAt m =
    if m = n then t.statesAt n ++ [s] else t.statesAt m := by
  simp only [record, statesAt, Std.ExtTreeMap.getD_insert, Std.LawfulEqOrd.compare_eq_iff_eq]
  split
  · rename_i heq
    rw [if_pos heq.symm]
  · rename_i hne
    rw [if_neg (Ne.symm hne)]

/-- A recorded pair is there, beside those that were. -/
theorem mem_statesAt_record {s' : State} :
    s' ∈ (t.record n s).statesAt m ↔ s' ∈ t.statesAt m ∨ m = n ∧ s' = s := by
  rw [statesAt_record]
  split
  · rename_i heq
    simp [heq]
  · rename_i hne
    simp [hne]

/-- And so is its node. -/
theorem mem_states_record : m ∈ (t.record n s).states ↔ m ∈ t.states ∨ m = n := by
  rw [record, Std.ExtTreeMap.mem_insert, Std.LawfulEqOrd.compare_eq_iff_eq, or_comm, eq_comm]

/-- The processed nodes are those with a recorded state. -/
theorem mem_processed : n ∈ t.processed ↔ n ∈ t.states :=
  Std.ExtTreeMap.mem_keys

/-- A node that was entered with a state was processed. -/
theorem mem_states_of_mem_statesAt (hs : s ∈ t.statesAt n) : n ∈ t.states := by
  by_contra hn
  rw [statesAt, Std.ExtTreeMap.getD_eq_fallback hn] at hs
  exact List.not_mem_nil hs

/-- Recording a back edge leaves all states as they are. -/
@[simp]
theorem states_recordBackEdge (via : Option EdgeId) :
    (t.recordBackEdge via).states = t.states := by
  cases via <;> rfl

@[simp]
theorem truncated_recordBackEdge (via : Option EdgeId) :
    (t.recordBackEdge via).truncated = t.truncated := by
  cases via <;> rfl

@[simp]
theorem statesAt_recordBackEdge (via : Option EdgeId) :
    (t.recordBackEdge via).statesAt n = t.statesAt n := by
  cases via <;> rfl

@[simp]
theorem order_recordBackEdge (via : Option EdgeId) :
    (t.recordBackEdge via).order = t.order := by
  cases via <;> rfl

/-- The edge is recorded, if the node was entered by one. -/
theorem mem_backEdges_recordBackEdge {via : Option EdgeId} {e : EdgeId} :
    e ∈ (t.recordBackEdge via).backEdges ↔ e ∈ t.backEdges ∨ via = some e := by
  cases via with
  | none => simp [recordBackEdge]
  | some e' => simp [recordBackEdge, eq_comm]

end Trace

/-! ### Entering -/

section Enter

variable {h : Hooks State Memory} {c : ExecutionConfig} {g : Graph} {n : NodeId} {node : Node}
  {s : State} {w : Walk State Memory}

/-- The branches of a node carry on the state that its transfer makes. -/
theorem branches_process : (process h g n node s w).1 =
    (forkAll h g (h.transfer node s w.memory).1 (g.outgoing n)
      (h.transfer node s w.memory).2).1 := rfl

/-- The pair is recorded with the state as it came in. -/
theorem statesAt_process (m : NodeId) :
    (process h g n node s w).2.trace.statesAt m = (w.trace.record n s).statesAt m := rfl

theorem mem_states_process {m : NodeId} :
    m ∈ (process h g n node s w).2.trace.states ↔ m ∈ w.trace.states ∨ m = n :=
  Trace.mem_states_record

theorem truncated_process :
    (process h g n node s w).2.trace.truncated = w.trace.truncated := rfl

theorem backEdges_process :
    (process h g n node s w).2.trace.backEdges = w.trace.backEdges := rfl

/-- The node is last in the order. -/
theorem order_process :
    (process h g n node s w).2.trace.order.toList = w.trace.order.toList ++ [n] :=
  Array.toList_push

variable [DecidableEq State] {room : Nat} {path : NodeSet} {via : Option EdgeId}

/-- A node of the path ends a cycle; only the edge is recorded. -/
theorem enter_of_mem_path (hn : n ∈ path) :
    enter h c g room path via n s w = { w with trace := w.trace.recordBackEdge via } := by
  rw [enter.eq_def]
  exact if_pos (Std.ExtTreeSet.contains_iff_mem.mpr hn)

/-- A state that the node had before changes nothing. -/
theorem enter_of_seen (hn : n ∉ path) (hs : s ∈ w.trace.statesAt n) :
    enter h c g room path via n s w = w := by
  have hpath : ¬ path.contains n = true := fun hc => hn (Std.ExtTreeSet.contains_iff_mem.mp hc)
  rw [enter.eq_def]
  exact (if_neg hpath).trans (if_pos hs)

/-- Beyond a budget the search is cut off. -/
theorem enter_of_overBudget (hn : n ∉ path) (hs : s ∉ w.trace.statesAt n)
    (hbudget : overBudget c path.size w.trace.stateCount = true) :
    enter h c g room path via n s w = { w with trace := { w.trace with truncated := true } } := by
  have hpath : ¬ path.contains n = true := fun hc => hn (Std.ExtTreeSet.contains_iff_mem.mp hc)
  rw [enter.eq_def]
  exact (if_neg hpath).trans ((if_neg hs).trans (if_pos hbudget))

/-- A node that does not resolve is passed over. -/
theorem enter_of_missing (hn : n ∉ path) (hs : s ∉ w.trace.statesAt n)
    (hbudget : overBudget c path.size w.trace.stateCount = false) (hnode : g.node? n = none) :
    enter h c g room path via n s w = w := by
  have hpath : ¬ path.contains n = true := fun hc => hn (Std.ExtTreeSet.contains_iff_mem.mp hc)
  have hwithin : ¬ overBudget c path.size w.trace.stateCount = true := by
    rw [hbudget]
    exact Bool.false_ne_true
  rw [enter.eq_def]
  refine (if_neg hpath).trans ((if_neg hs).trans ((if_neg hwithin).trans ?_))
  simp only [hnode]

/-- A new pair within the budget is processed, and then its branches are entered in turn. -/
theorem enter_process (hn : n ∉ path) (hs : s ∉ w.trace.statesAt n)
    (hbudget : overBudget c path.size w.trace.stateCount = false)
    (hnode : g.node? n = some node) :
    enter h c g (room + 1) path via n s w =
      (process h g n node s w).1.foldl
        (fun w b => enter h c g room (path.insert n) (some b.edge) b.target b.state w)
        (process h g n node s w).2 := by
  have hpath : ¬ path.contains n = true := fun hc => hn (Std.ExtTreeSet.contains_iff_mem.mp hc)
  have hwithin : ¬ overBudget c path.size w.trace.stateCount = true := by
    rw [hbudget]
    exact Bool.false_ne_true
  rw [enter.eq_def]
  refine (if_neg hpath).trans ((if_neg hs).trans ((if_neg hwithin).trans ?_))
  simp only [hnode]

end Enter

end ProgramGraph.Execution
