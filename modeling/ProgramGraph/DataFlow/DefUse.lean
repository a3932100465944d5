import ProgramGraph.DataFlow.LiveVariables
import ProgramGraph.DataFlow.ReachingDefinitions

/-!
# Definitions and their uses

`defUseChains` pairs every definition with the nodes that may use it, and `deadDefinitions` lists
the definitions whose variable is not live where they are made.
-/

namespace ProgramGraph.DataFlow

/-- Every definition that reaches a node which uses its variable, with that node; ordered by node,
then by definition. -/
def defUseChains (c : DataFlowConfig) (g : Graph) : List (Definition × NodeId) :=
  let reaching := reachingDefinitions c g
  g.nodeIds.flatMap fun n =>
    match g.node? n, reaching.before? n with
    | some node, some fact =>
      (fact.toList.filter fun d => (uses c node).contains d.variableName).map (·, n)
    | _, _ => []

/-- Every definition whose variable is not live after its node; ordered by node, then by variable.
-/
def deadDefinitions (c : DataFlowConfig) (g : Graph) : List Definition :=
  let live := liveVariables c g
  g.nodeIds.flatMap fun n =>
    match g.node? n with
    | none => []
    | some node =>
      ((defs c node).toList.filter fun v => !(live.after? n).any (·.contains v)).map (⟨·, n⟩)

end ProgramGraph.DataFlow
