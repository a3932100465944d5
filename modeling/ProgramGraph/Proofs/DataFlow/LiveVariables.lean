import ProgramGraph.DataFlow.LiveVariables
import ProgramGraph.Graph.Shape
import ProgramGraph.Proofs.DataFlow.FactSet
import ProgramGraph.Proofs.DataFlow.Spread
import ProgramGraph.Proofs.DataFlow.Statement

/-!
# Variables are live along walks to their uses

`mem_liveVariables_iff_walk`: a variable is live after a node exactly if a walk leads from the node
to one that uses the variable, with no node strictly between that defines it; and it is live before
a node that uses it, or that does not define it and after which it is live. A node that both uses
and defines a variable uses it first.

Variables spread against the edges (`LiveVariables.spread`): a node raises those it uses and passes
on those it does not define.
-/

namespace ProgramGraph.DataFlow

namespace LiveVariables

variable {c : DataFlowConfig} {g : Graph} {n : NodeId} {node : Node} {v : String}

/-! ### The transfer -/

/-- A node makes the variables it uses live, and keeps those live that it does not define. -/
theorem mem_transfer {fact : NameSet} :
    v ∈ transfer c node fact ↔ v ∈ uses c node ∨ v ∉ defs c node ∧ v ∈ fact := by
  rw [transfer, Std.ExtTreeSet.mem_union_iff, FiniteSet.mem_filter_iff, Bool.not_eq_true',
    ← Bool.not_eq_true, Std.ExtTreeSet.contains_iff_mem, or_comm, and_comm (a := v ∈ fact)]

/-! ### The iteration ends -/

/-- Live variables are united. -/
theorem unites (c : DataFlowConfig) (g : Graph) : (problem c).Unites g :=
  ⟨fun _ _ => rfl, rfl, rfl⟩

/-- All variables that are used in the graph. -/
def allUsed (c : DataFlowConfig) (g : Graph) : NameSet :=
  g.nodes.toList.foldl (fun used node => used ∪ uses c node) ∅

/-- Whatever a node of the graph uses is among the used variables. -/
theorem mem_allUsed (hn : g.node? n = some node) (hv : v ∈ uses c node) : v ∈ allUsed c g :=
  FiniteSet.mem_foldl_union.mpr ⟨node, Graph.mem_nodes_iff.mpr ⟨n, hn⟩, hv⟩

/-- A transfer adds variables that its node uses, and keeps or drops the others one by one. -/
def ascent (c : DataFlowConfig) (g : Graph) : Ascent (problem c) g :=
  (unites c g).ascent (allUsed c g).toList
    (fun _ _ hle v hv =>
      mem_transfer.mpr ((mem_transfer.mp hv).imp_right fun h => ⟨h.1, hle v h.2⟩))
    (fun hn hall v hv => (mem_transfer.mp hv).elim
      (fun huse => Std.ExtTreeSet.mem_toList.mpr (mem_allUsed hn huse)) fun h => hall v h.2)

theorem height_ascent : (ascent c g).height = height c g :=
  Std.ExtTreeSet.length_toList

/-- Without a budget the iteration is never truncated. -/
theorem truncated_liveVariables (g : Graph) (hmax : c.maxIterations = none) :
    (liveVariables c g).truncated = false := by
  rw [liveVariables, hmax]
  exact (ascent c g).truncated_solve (by rw [height_ascent]; exact le_rfl)

/-! ### Walks -/

/-- The variable may be used after the node before it is defined again. -/
def LiveAfter (c : DataFlowConfig) (g : Graph) (n : NodeId) (v : String) : Prop :=
  ∃ u, Uses c g u v ∧
    Graph.ClearWalk (fun p q => q ∈ g.successors p) (fun p => ¬ Defines c g p v) n u

/-- Variables spread: a node raises those it uses, and passes on those it does not define. -/
def spread (c : DataFlowConfig) (g : Graph) : Spread (problem c) g String where
  Holds v fact := v ∈ fact
  Raises v n := Uses c g n v
  Passes w v n := w = v ∧ ¬ Defines c g n v
  holds_meet := Std.ExtTreeSet.mem_union_iff
  not_holds_initial _ := Std.ExtTreeSet.not_mem_empty
  holds_transfer {v fact n node} hn := by
    simp only [defines_iff hn, uses_iff hn, and_assoc, exists_eq_left]
    exact mem_transfer

/-- The flow runs against the edges, from a use to the nodes before it. -/
theorem arrives_iff_liveAfter : (spread c g).Arrives v n ↔ LiveAfter c g n v := by
  rw [(spread c g).arrives_iff_exists_raises (fun _ _ _ => Iff.rfl) Std.ExtTreeSet.not_mem_empty]
  exact exists_congr fun u => and_congr_right' Graph.clearWalk_flip

/-- After each node stand its live variables, and before it their transfer. -/
theorem exists_liveVariables (hc : g.Consistent .backward) (hmax : c.maxIterations = none)
    (hn : g.node? n = some node) : ∃ after : NameSet,
      (liveVariables c g).after? n = some after ∧
      (liveVariables c g).before? n = some (transfer c node after) ∧
      ∀ v, v ∈ after ↔ LiveAfter c g n v := by
  have ht := truncated_liveVariables g hmax
  rw [liveVariables] at ht ⊢
  obtain ⟨after, hafter, hbefore, hmem⟩ := (spread c g).exists_solution hc ht hn
  refine ⟨after, ?_, ?_, fun v => (hmem v).trans arrives_iff_liveAfter⟩
  · rw [Problem.after?_solve_backward rfl, hafter]
  · rw [Problem.before?_solve_backward rfl, hbefore]
    rfl

end LiveVariables

/-- **Live variables are walks to uses.** After a node the variables are live that some walk of one
or more edges brings to a use without a definition strictly between; before it those that the node
uses, and those live after it that it does not define. -/
theorem mem_liveVariables_iff_walk (c : DataFlowConfig) (g : Graph) (hc : g.Consistent .backward)
    (hmax : c.maxIterations = none) (n : NodeId) (hn : g.contains n = true) :
    ∃ before after : NameSet,
      (liveVariables c g).before? n = some before ∧
      (liveVariables c g).after? n = some after ∧
      (∀ v, v ∈ after ↔ ∃ u, Uses c g u v ∧
        Graph.ClearWalk (fun p q => q ∈ g.successors p) (fun p => ¬ Defines c g p v) n u) ∧
      (∀ v, v ∈ before ↔ Uses c g n v ∨ ¬ Defines c g n v ∧ v ∈ after) := by
  obtain ⟨node, hnode⟩ := Graph.exists_node?_of_contains hn
  obtain ⟨after, hafter, hbefore, hmem⟩ := LiveVariables.exists_liveVariables hc hmax hnode
  refine ⟨_, after, hbefore, hafter, hmem, fun v => ?_⟩
  rw [uses_iff hnode, defines_iff hnode]
  exact LiveVariables.mem_transfer

/-- A loop of three nodes, `i = 0`, `i < n` and `i = i + 1`: the first node defines the counter, so
that it is live after it and not before; the last node uses the counter before it defines it; and
the bound is live all round the loop. -/
theorem mem_liveVariables_loop :
    let c : DataFlowConfig := {}
    let g := ((((Graph.addShape ∅ .cycle 3 "n").setProperty ⟨0⟩ "defs" "i").setProperty
      ⟨1⟩ "uses" "i, n").setProperty ⟨2⟩ "defs" "i").setProperty ⟨2⟩ "uses" "i"
    g.Consistent .backward ∧ c.maxIterations = none ∧
      g.contains ⟨0⟩ = true ∧ g.contains ⟨2⟩ = true ∧
      (∃ before after, (liveVariables c g).before? ⟨0⟩ = some before ∧
        (liveVariables c g).after? ⟨0⟩ = some after ∧ "i" ∈ after ∧ "i" ∉ before) ∧
      ∃ before after, (liveVariables c g).before? ⟨2⟩ = some before ∧
        (liveVariables c g).after? ⟨2⟩ = some after ∧ "i" ∈ before ∧ "n" ∈ after := by
  intro c g
  have hc : g.Consistent .backward := by decide
  obtain ⟨before₀, after₀, hbefore₀, hafter₀, hlive₀, hentry₀⟩ :=
    mem_liveVariables_iff_walk c g hc rfl ⟨0⟩ (by decide)
  obtain ⟨before₂, after₂, hbefore₂, hafter₂, hlive₂, hentry₂⟩ :=
    mem_liveVariables_iff_walk c g hc rfl ⟨2⟩ (by decide)
  refine ⟨hc, rfl, by decide, by decide, ⟨before₀, after₀, hbefore₀, hafter₀, ?_, ?_⟩,
    before₂, after₂, hbefore₂, hafter₂, ?_, ?_⟩
  · exact (hlive₀ _).mpr ⟨⟨1⟩, by decide, [], by decide, by decide⟩
  · rw [hentry₀]
    have huses : ¬ Uses c g ⟨0⟩ "i" := by decide
    have hdefines : Defines c g ⟨0⟩ "i" := by decide
    simp [huses, hdefines]
  · exact (hentry₂ _).mpr (Or.inl (by decide))
  · exact (hlive₂ _).mpr ⟨⟨1⟩, by decide, [⟨0⟩], by decide, by decide⟩

end ProgramGraph.DataFlow
