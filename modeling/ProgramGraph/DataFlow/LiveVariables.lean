import ProgramGraph.DataFlow.Problem
import ProgramGraph.DataFlow.Statement

/-!
# Live variables

Which variables may still be used after a node before they are defined again. Going backward, a node
drops the variables it defines and adds those it uses.
-/

namespace ProgramGraph.DataFlow

namespace LiveVariables

/-- The variables live before a node. -/
def transfer (c : DataFlowConfig) (node : Node) (fact : NameSet) : NameSet :=
  (fact.filter fun v => !(defs c node).contains v) ∪ uses c node

def problem (c : DataFlowConfig) : Problem NameSet where
  name := "live variables"
  direction := .backward
  boundary _ := ∅
  initial _ := ∅
  meet a b := a ∪ b
  transfer _ := transfer c

/-- How often a fact can change: once for every variable that is used in the graph. -/
def height (c : DataFlowConfig) (g : Graph) : Nat :=
  (g.nodes.toList.foldl (fun used node => used ∪ uses c node) (∅ : NameSet)).size

end LiveVariables

/-- The variables live at each node. -/
def liveVariables (c : DataFlowConfig) (g : Graph) : Solution NameSet :=
  let problem := LiveVariables.problem c
  problem.solve g <|
    (c.maxIterations.map UInt64.toNat).getD (problem.allowance g (LiveVariables.height c g))

end ProgramGraph.DataFlow
