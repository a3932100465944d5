import Mathlib.Data.List.Nodup
import ProgramGraph.DataFlow.DefUse
import ProgramGraph.Proofs.DataFlow.LiveVariables
import ProgramGraph.Proofs.DataFlow.ReachingDefinitions

/-!
# Dead definitions are those without uses

`deadDefinitions` goes by the variables that are live after a node, found against the edges, and
`defUseChains` by the definitions that hold before a node, found with them. Both are the same walks,
from a definition to a use with no other definition between, so the two lists agree: a definition is
dead exactly if no chain starts with it (`mem_deadDefinitions_iff_no_chain`).
-/

namespace ProgramGraph.DataFlow

variable {c : DataFlowConfig} {g : Graph}

/-! ### Lists that are built node by node -/

/-- No handle is listed twice. -/
theorem nodup_nodeIds (g : Graph) : g.nodeIds.Nodup := by
  refine List.nodup_range.map fun i j hij => ?_
  exact congrArg NodeId.index hij

/-- Such a list has no repetition if no part has one and each entry tells its node. -/
theorem nodup_flatMap_nodeIds {α : Type} {f : NodeId → List α} (site : α → NodeId)
    (hnodup : ∀ n, (f n).Nodup) (hsite : ∀ n, ∀ a ∈ f n, site a = n) :
    (g.nodeIds.flatMap f).Nodup := by
  refine List.nodup_flatMap.mpr ⟨fun n _ => hnodup n, ?_⟩
  refine (nodup_nodeIds g).imp fun {m n} hne => ?_
  intro a hm hn
  exact hne ((hsite m a hm).symm.trans (hsite n a hn))

/-! ### Chains -/

/-- The chains that end at a node. -/
def chainsTo (c : DataFlowConfig) (g : Graph) (u : NodeId) : List (Definition × NodeId) :=
  match g.node? u, (reachingDefinitions c g).before? u with
  | some node, some before =>
    (before.toList.filter fun d => (uses c node).contains d.variableName).map (·, u)
  | _, _ => []

theorem defUseChains_eq : defUseChains c g = g.nodeIds.flatMap (chainsTo c g) := rfl

/-- A chain leads to a use from each definition of the variable that reaches it. -/
theorem mem_chainsTo {d : Definition} {u m : NodeId} :
    (d, m) ∈ chainsTo c g u ↔ m = u ∧ Uses c g u d.variableName ∧
      ∃ before, (reachingDefinitions c g).before? u = some before ∧ d ∈ before := by
  cases hnode : g.node? u with
  | none => simp [chainsTo, Uses, hnode]
  | some node =>
    cases hbefore : (reachingDefinitions c g).before? u with
    | none => simp [chainsTo, hnode, hbefore]
    | some before =>
      simp only [chainsTo, hnode, hbefore, uses_iff hnode, List.mem_map, List.mem_filter,
        Std.ExtTreeSet.mem_toList, Std.ExtTreeSet.contains_iff_mem, Option.some.injEq]
      constructor
      · rintro ⟨d, ⟨hd, huse⟩, heq⟩
        cases heq
        exact ⟨rfl, huse, before, rfl, hd⟩
      · rintro ⟨rfl, huse, _, rfl, hd⟩
        exact ⟨d, ⟨hd, huse⟩, rfl⟩

theorem nodup_chainsTo (u : NodeId) : (chainsTo c g u).Nodup := by
  unfold chainsTo
  split
  · exact ((FiniteSet.nodup_toList _).filter _).map fun _ _ heq => congrArg Prod.fst heq
  · exact List.nodup_nil

/-- A use is chained to the definitions of its variable that hold before it. -/
theorem mem_defUseChains {d : Definition} {u : NodeId} :
    (d, u) ∈ defUseChains c g ↔ Uses c g u d.variableName ∧
      ∃ before, (reachingDefinitions c g).before? u = some before ∧ d ∈ before := by
  rw [defUseChains_eq, List.mem_flatMap]
  constructor
  · rintro ⟨n, -, hchain⟩
    obtain ⟨rfl, hchain⟩ := mem_chainsTo.mp hchain
    exact hchain
  · rintro ⟨⟨node, hnode, huse⟩, hbefore⟩
    refine ⟨u, Graph.mem_nodeIds.mpr (Graph.contains_of_node? hnode), mem_chainsTo.mpr ?_⟩
    exact ⟨rfl, ⟨node, hnode, huse⟩, hbefore⟩

/-- No chain is listed twice. -/
theorem nodup_defUseChains (c : DataFlowConfig) (g : Graph) : (defUseChains c g).Nodup := by
  refine nodup_flatMap_nodeIds Prod.snd nodup_chainsTo ?_
  rintro u ⟨d, m⟩ hchain
  exact (mem_chainsTo.mp hchain).1

/-- The chains of a definition lead to the uses that its walks reach. -/
theorem mem_defUseChains_iff_walk (hc : g.Consistent .forward) (hmax : c.maxIterations = none)
    {d : Definition} {u : NodeId} : (d, u) ∈ defUseChains c g ↔
      Uses c g u d.variableName ∧ ReachingDefinitions.HoldsBefore c g d u := by
  rw [mem_defUseChains]
  refine and_congr_right fun ⟨node, hnode, _⟩ => ?_
  obtain ⟨before, hbefore, -, hmem⟩ :=
    ReachingDefinitions.exists_reachingDefinitions hc hmax hnode
  rw [← hmem d, hbefore]
  simp

/-! ### Dead definitions -/

/-- The dead definitions that a node makes. -/
def deadAt (c : DataFlowConfig) (g : Graph) (n : NodeId) : List Definition :=
  match g.node? n with
  | none => []
  | some node => ((defs c node).toList.filter fun v =>
      !((liveVariables c g).after? n).any (·.contains v)).map (⟨·, n⟩)

theorem deadDefinitions_eq : deadDefinitions c g = g.nodeIds.flatMap (deadAt c g) := rfl

/-- A definition is dead if its variable is not live behind the node that makes it. -/
theorem mem_deadAt {d : Definition} {n : NodeId} :
    d ∈ deadAt c g n ↔ d.node = n ∧ Defines c g n d.variableName ∧
      ∀ after, (liveVariables c g).after? n = some after → d.variableName ∉ after := by
  cases hnode : g.node? n with
  | none => simp [deadAt, Defines, hnode]
  | some node =>
    simp only [deadAt, hnode, defines_iff hnode, List.mem_map, List.mem_filter,
      Std.ExtTreeSet.mem_toList, Bool.not_eq_true', ← Bool.not_eq_true, Option.any_eq_true,
      Std.ExtTreeSet.contains_iff_mem, not_exists, not_and]
    constructor
    · rintro ⟨v, hv, rfl⟩
      exact ⟨rfl, hv⟩
    · rintro ⟨rfl, hv⟩
      exact ⟨d.variableName, hv, rfl⟩

theorem nodup_deadAt (n : NodeId) : (deadAt c g n).Nodup := by
  unfold deadAt
  split
  · exact List.nodup_nil
  · exact ((FiniteSet.nodup_toList _).filter _).map fun _ _ heq =>
      congrArg Definition.variableName heq

/-- The dead definitions of all nodes. -/
theorem mem_deadDefinitions {d : Definition} :
    d ∈ deadDefinitions c g ↔ Defines c g d.node d.variableName ∧
      ∀ after, (liveVariables c g).after? d.node = some after → d.variableName ∉ after := by
  rw [deadDefinitions_eq, List.mem_flatMap]
  constructor
  · rintro ⟨n, -, hdead⟩
    obtain ⟨rfl, hdead⟩ := mem_deadAt.mp hdead
    exact hdead
  · rintro ⟨⟨node, hnode, hv⟩, hdead⟩
    refine ⟨d.node, Graph.mem_nodeIds.mpr (Graph.contains_of_node? hnode), mem_deadAt.mpr ?_⟩
    exact ⟨rfl, ⟨node, hnode, hv⟩, hdead⟩

/-- No dead definition is listed twice. -/
theorem nodup_deadDefinitions (c : DataFlowConfig) (g : Graph) : (deadDefinitions c g).Nodup := by
  refine nodup_flatMap_nodeIds Definition.node nodup_deadAt ?_
  intro n d hdead
  exact (mem_deadAt.mp hdead).1

/-- A definition is dead if no walk from it comes to a use. -/
theorem mem_deadDefinitions_iff_walk (hc : g.Consistent .backward) (hmax : c.maxIterations = none)
    {d : Definition} : d ∈ deadDefinitions c g ↔ Defines c g d.node d.variableName ∧
      ¬ LiveVariables.LiveAfter c g d.node d.variableName := by
  rw [mem_deadDefinitions]
  refine and_congr_right fun ⟨node, hnode, _⟩ => ?_
  obtain ⟨after, hafter, -, hmem⟩ := LiveVariables.exists_liveVariables hc hmax hnode
  rw [← hmem, hafter]
  simp

/-! ### The two views agree -/

/-- Where the lists of the graph agree, the walks of the two analyses are the same. -/
theorem liveAfter_iff_exists_use (hc : ∀ m p, p ∈ g.predecessors m ↔ m ∈ g.successors p)
    {d : Definition} (hmade : Defines c g d.node d.variableName) :
    LiveVariables.LiveAfter c g d.node d.variableName ↔
      ∃ u, Uses c g u d.variableName ∧ ReachingDefinitions.HoldsBefore c g d u := by
  have hstep : (fun p q => q ∈ g.successors p) = fun p q => p ∈ g.predecessors q := by
    funext p q
    exact propext (hc q p).symm
  unfold LiveVariables.LiveAfter ReachingDefinitions.HoldsBefore
  rw [hstep]
  simp [hmade]

/-- **A definition is dead exactly if no chain starts with it.** Both lists hold every entry once,
and only definitions that their nodes make. -/
theorem mem_deadDefinitions_iff_no_chain (c : DataFlowConfig) (g : Graph)
    (hc : ∀ m p, p ∈ g.predecessors m ↔ m ∈ g.successors p) (hmax : c.maxIterations = none) :
    (∀ d v, Defines c g d v →
      (⟨v, d⟩ ∈ deadDefinitions c g ↔ ∀ site, (⟨v, d⟩, site) ∉ defUseChains c g)) ∧
    (deadDefinitions c g).Nodup ∧ (defUseChains c g).Nodup ∧
    (∀ d ∈ deadDefinitions c g, Defines c g d.node d.variableName) ∧
    ∀ d site, (d, site) ∈ defUseChains c g → Defines c g d.node d.variableName := by
  have hforward : g.Consistent .forward := fun m p => (hc m p).mp
  have hbackward : g.Consistent .backward := fun m s => (hc s m).mpr
  refine ⟨fun d v hmade => ?_, nodup_deadDefinitions c g, nodup_defUseChains c g,
    fun d hdead => (mem_deadDefinitions.mp hdead).1, fun d site hchain => ?_⟩
  · rw [mem_deadDefinitions_iff_walk hbackward hmax, liveAfter_iff_exists_use hc hmade]
    simp only [mem_defUseChains_iff_walk hforward hmax, hmade, true_and, not_exists]
  · exact ((mem_defUseChains_iff_walk hforward hmax).mp hchain).2.1

/-- In a loop of three nodes the first and the last define a counter, and the second and the last
use it: the definition at the first node has chains to both, and the one at the last node is dead,
since the first node defines the counter again before it is used. A variable that is never used is
dead. -/
theorem deadDefinitions_loop :
    let c : DataFlowConfig := {}
    let g := ((((Graph.addShape ∅ .cycle 3 "n").setProperty ⟨0⟩ "defs" "i, k").setProperty
      ⟨1⟩ "uses" "i").setProperty ⟨2⟩ "defs" "i").setProperty ⟨2⟩ "uses" "i"
    (∀ m p, p ∈ g.predecessors m ↔ m ∈ g.successors p) ∧ c.maxIterations = none ∧
      ⟨"i", ⟨0⟩⟩ ∉ deadDefinitions c g ∧ ⟨"i", ⟨2⟩⟩ ∈ deadDefinitions c g ∧
      ⟨"k", ⟨0⟩⟩ ∈ deadDefinitions c g := by
  intro c g
  have hforward : g.Consistent .forward := by decide
  have hbackward : g.Consistent .backward := by decide
  have hc : ∀ m p, p ∈ g.predecessors m ↔ m ∈ g.successors p :=
    fun m p => ⟨hforward m p, hbackward p m⟩
  have hchains : defUseChains c g = [(⟨"i", ⟨0⟩⟩, ⟨1⟩), (⟨"i", ⟨0⟩⟩, ⟨2⟩)] := by decide +kernel
  obtain ⟨hdead, -⟩ := mem_deadDefinitions_iff_no_chain c g hc rfl
  refine ⟨hc, rfl, ?_, ?_, ?_⟩
  · rw [hdead _ _ (by decide), hchains]
    exact fun h => h ⟨1⟩ (by simp)
  · rw [hdead _ _ (by decide), hchains]
    simp
  · rw [hdead _ _ (by decide), hchains]
    simp

end ProgramGraph.DataFlow
