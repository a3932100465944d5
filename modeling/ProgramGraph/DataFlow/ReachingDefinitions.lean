import ProgramGraph.DataFlow.Problem
import ProgramGraph.DataFlow.Statement

/-!
# Reaching definitions

Which definitions may still hold when a node is reached. A node drops the definitions of the
variables it defines and adds its own.
-/

namespace ProgramGraph.DataFlow

/-- A finite set of definitions. -/
abbrev DefinitionSet := Std.ExtTreeSet Definition

namespace ReachingDefinitions

/-- The definitions that a node makes. -/
def made (c : DataFlowConfig) (n : NodeId) (node : Node) : List Definition :=
  (defs c node).toList.map (⟨·, n⟩)

/-- The definitions that hold after a node. -/
def transfer (c : DataFlowConfig) (n : NodeId) (node : Node) (fact : DefinitionSet) :
    DefinitionSet :=
  (fact.filter fun d => !(defs c node).contains d.variableName).insertMany (made c n node)

def problem (c : DataFlowConfig) : Problem DefinitionSet where
  name := "reaching definitions"
  direction := .forward
  boundary _ := ∅
  initial _ := ∅
  meet a b := a ∪ b
  transfer := transfer c

/-- How often a fact can change: once for every definition in the graph. -/
def height (c : DataFlowConfig) (g : Graph) : Nat :=
  (g.nodes.toList.flatMap fun node => (defs c node).toList).length

end ReachingDefinitions

/-- The definitions that reach each node. -/
def reachingDefinitions (c : DataFlowConfig) (g : Graph) : Solution DefinitionSet :=
  let problem := ReachingDefinitions.problem c
  problem.solve g <|
    (c.maxIterations.map UInt64.toNat).getD
      (problem.allowance g (ReachingDefinitions.height c g))

end ProgramGraph.DataFlow
