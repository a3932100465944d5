import ProgramGraph.DataFlow.ReachingDefinitions
import ProgramGraph.Graph.Shape
import ProgramGraph.Proofs.DataFlow.FactSet
import ProgramGraph.Proofs.DataFlow.Spread
import ProgramGraph.Proofs.DataFlow.Statement

/-!
# Definitions reach along walks that do not define again

`mem_reachingDefinitions_iff_walk`: a definition holds before a node exactly if a walk leads from
the node that makes it to that node, with no node strictly between that defines the variable; and it
holds after a node if the node makes it, or if it holds before and the node does not define the
variable.

Definitions spread along the flow (`ReachingDefinitions.spread`): a node raises those it makes and
passes on those of other variables. So a solution is told by walks as soon as the lists of the graph
agree and the iteration is not truncated; the latter always holds, since the problem ascends by
inclusion (`truncated_reachingDefinitions`).
-/

namespace ProgramGraph.DataFlow

namespace ReachingDefinitions

variable {c : DataFlowConfig} {g : Graph} {n : NodeId} {node : Node}

/-! ### The transfer -/

/-- A node makes a definition of each variable it defines. -/
theorem mem_made {d : Definition} :
    d ∈ made c n node ↔ d.node = n ∧ d.variableName ∈ defs c node := by
  simp only [made, List.mem_map, Std.ExtTreeSet.mem_toList]
  constructor
  · rintro ⟨v, hv, rfl⟩
    exact ⟨rfl, hv⟩
  · rintro ⟨rfl, hv⟩
    exact ⟨d.variableName, hv, rfl⟩

/-- A node makes its own definitions and keeps those of the variables it does not define. -/
theorem mem_transfer {fact : DefinitionSet} {d : Definition} :
    d ∈ transfer c n node fact ↔
      d.node = n ∧ d.variableName ∈ defs c node ∨ d.variableName ∉ defs c node ∧ d ∈ fact := by
  rw [transfer, Std.ExtTreeSet.mem_insertMany_list, List.contains_iff_mem, mem_made,
    FiniteSet.mem_filter_iff, Bool.not_eq_true', ← Bool.not_eq_true,
    Std.ExtTreeSet.contains_iff_mem, or_comm, and_comm (a := d ∈ fact)]

/-! ### The iteration ends -/

/-- Reaching definitions are united. -/
theorem unites (c : DataFlowConfig) (g : Graph) : (problem c).Unites g :=
  ⟨fun _ _ => rfl, rfl, rfl⟩

/-- All definitions of the graph. -/
def allMade (c : DataFlowConfig) (g : Graph) : List Definition :=
  g.nodes.toList.zipIdx.flatMap fun (node, i) => made c ⟨i⟩ node

/-- There are as many definitions as the height says. -/
theorem length_allMade : (allMade c g).length = height c g := by
  have hlen : ∀ entry : Node × Nat,
      (made c ⟨entry.2⟩ entry.1).length = (defs c entry.1).toList.length := by
    intro entry
    rw [made, List.length_map]
  rw [allMade, height, List.length_flatMap, List.length_flatMap,
    List.map_congr_left fun entry _ => hlen entry]
  nth_rewrite 2 [← List.zipIdx_map_fst 0 g.nodes.toList]
  rw [List.map_map]
  rfl

theorem mem_allMade {d : Definition} (hn : g.node? n = some node) (hd : d ∈ made c n node) :
    d ∈ allMade c g := by
  have hentry : (node, n.index) ∈ g.nodes.toList.zipIdx := by
    rw [List.mem_zipIdx_iff_getElem?, Array.getElem?_toList]
    exact hn
  exact List.mem_flatMap.mpr ⟨(node, n.index), hentry, hd⟩

/-- A transfer adds definitions that its node makes, and keeps or drops the others one by one. -/
def ascent (c : DataFlowConfig) (g : Graph) : Ascent (problem c) g :=
  (unites c g).ascent (allMade c g)
    (fun _ _ hle d hd =>
      mem_transfer.mpr ((mem_transfer.mp hd).imp_right fun h => ⟨h.1, hle d h.2⟩))
    (fun hn hall d hd =>
      (mem_transfer.mp hd).elim (fun h => mem_allMade hn (mem_made.mpr h)) fun h => hall d h.2)

/-- Without a budget the iteration is never truncated. -/
theorem truncated_reachingDefinitions (g : Graph) (hmax : c.maxIterations = none) :
    (reachingDefinitions c g).truncated = false := by
  have hheight : (ascent c g).height = height c g := length_allMade
  rw [reachingDefinitions, hmax]
  exact (ascent c g).truncated_solve (by rw [hheight]; exact le_rfl)

/-! ### Walks -/

/-- The definition holds when the node is reached: its node makes it, and a walk leads on from there
on which no inner node defines the variable. -/
def HoldsBefore (c : DataFlowConfig) (g : Graph) (d : Definition) (n : NodeId) : Prop :=
  Defines c g d.node d.variableName ∧
    Graph.ClearWalk (fun p q => p ∈ g.predecessors q) (fun p => ¬ Defines c g p d.variableName)
      d.node n

/-- Definitions spread: a node raises those it makes, and passes on those of the variables it does
not define. -/
def spread (c : DataFlowConfig) (g : Graph) : Spread (problem c) g Definition where
  Holds d fact := d ∈ fact
  Raises d n := d.node = n ∧ Defines c g n d.variableName
  Passes d' d n := d' = d ∧ ¬ Defines c g n d.variableName
  holds_meet := Std.ExtTreeSet.mem_union_iff
  not_holds_initial _ := Std.ExtTreeSet.not_mem_empty
  holds_transfer {d fact n node} hn := by
    simp only [defines_iff hn, and_assoc, exists_eq_left]
    exact mem_transfer

/-- A definition comes to a node exactly if a walk brings it there. -/
theorem arrives_iff_holdsBefore {d : Definition} :
    (spread c g).Arrives d n ↔ HoldsBefore c g d n := by
  rw [(spread c g).arrives_iff_exists_raises (fun _ _ _ => Iff.rfl) Std.ExtTreeSet.not_mem_empty]
  constructor
  · rintro ⟨m, ⟨rfl, hmade⟩, hwalk⟩
    exact ⟨hmade, hwalk⟩
  · rintro ⟨hmade, hwalk⟩
    exact ⟨d.node, ⟨rfl, hmade⟩, hwalk⟩

/-- Before each node stand the definitions that hold there, and after it their transfer. -/
theorem exists_reachingDefinitions (hc : g.Consistent .forward) (hmax : c.maxIterations = none)
    (hn : g.node? n = some node) : ∃ before : DefinitionSet,
      (reachingDefinitions c g).before? n = some before ∧
      (reachingDefinitions c g).after? n = some (transfer c n node before) ∧
      ∀ d, d ∈ before ↔ HoldsBefore c g d n := by
  have ht := truncated_reachingDefinitions g hmax
  rw [reachingDefinitions] at ht ⊢
  obtain ⟨before, hbefore, hafter, hmem⟩ := (spread c g).exists_solution hc ht hn
  refine ⟨before, ?_, ?_, fun d => (hmem d).trans arrives_iff_holdsBefore⟩
  · rw [Problem.before?_solve_forward rfl, hbefore]
  · rw [Problem.after?_solve_forward rfl, hafter]
    rfl

end ReachingDefinitions

open ReachingDefinitions in
/-- **Reaching definitions are walks.** Before a node hold the definitions from whose node a walk of
one or more edges leads there without another definition of the variable strictly between; after it
hold those that the node makes, and those that hold before it and whose variable it does not define.
-/
theorem mem_reachingDefinitions_iff_walk (c : DataFlowConfig) (g : Graph)
    (hc : g.Consistent .forward) (hmax : c.maxIterations = none) (n : NodeId)
    (hn : g.contains n = true) : ∃ before after : DefinitionSet,
      (reachingDefinitions c g).before? n = some before ∧
      (reachingDefinitions c g).after? n = some after ∧
      (∀ v d, ⟨v, d⟩ ∈ before ↔ Defines c g d v ∧
        Graph.ClearWalk (fun p q => p ∈ g.predecessors q) (fun p => ¬ Defines c g p v) d n) ∧
      (∀ v d, ⟨v, d⟩ ∈ after ↔
        d = n ∧ Defines c g n v ∨ ¬ Defines c g n v ∧ ⟨v, d⟩ ∈ before) := by
  obtain ⟨node, hnode⟩ := Graph.exists_node?_of_contains hn
  obtain ⟨before, hbefore, hafter, hmem⟩ := exists_reachingDefinitions hc hmax hnode
  refine ⟨before, _, hbefore, hafter, fun v d => hmem ⟨v, d⟩, fun v d => ?_⟩
  rw [defines_iff hnode]
  exact mem_transfer

/-- Three nodes in a circle: a definition at the first one reaches it again, past a node that
defines another variable. -/
theorem mem_reachingDefinitions_cycle :
    let c : DataFlowConfig := {}
    let g := ((Graph.addShape ∅ .cycle 3 "n").setProperty ⟨0⟩ "defs" "x, y").setProperty
      ⟨1⟩ "defs" "y"
    g.Consistent .forward ∧ c.maxIterations = none ∧ g.contains ⟨0⟩ = true ∧
      ∃ before, (reachingDefinitions c g).before? ⟨0⟩ = some before ∧
        ⟨"x", ⟨0⟩⟩ ∈ before ∧ ⟨"y", ⟨1⟩⟩ ∈ before := by
  intro c g
  have hc : g.Consistent .forward := by decide
  obtain ⟨before, -, hbefore, -, hmem, -⟩ :=
    mem_reachingDefinitions_iff_walk c g hc rfl ⟨0⟩ (by decide)
  refine ⟨hc, rfl, by decide, before, hbefore, (hmem _ _).mpr ?_, (hmem _ _).mpr ?_⟩
  · exact ⟨by decide, [⟨1⟩, ⟨2⟩], by decide, by decide⟩
  · exact ⟨by decide, [⟨2⟩], by decide, by decide⟩

end ProgramGraph.DataFlow
