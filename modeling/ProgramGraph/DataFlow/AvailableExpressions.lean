import ProgramGraph.DataFlow.Problem
import ProgramGraph.DataFlow.Statement

/-!
# Available expressions

Which expressions have been computed on every way to a node and still have their value. A node
drops the expressions that read a variable it defines, and adds its own unless it defines one of
its operands.
-/

namespace ProgramGraph.DataFlow

/-- A finite set of expressions. -/
abbrev ExpressionSet := Std.ExtTreeSet Expression

namespace AvailableExpressions

/-- The expression that is available after a node because the node computes it. -/
def generated (c : DataFlowConfig) (node : Node) : Option Expression :=
  (expressionOf c node).filter fun e => !e.readsAny (defs c node)

/-- The expressions available after a node. -/
def transfer (c : DataFlowConfig) (node : Node) (fact : ExpressionSet) : ExpressionSet :=
  let kept := fact.filter fun e => !e.readsAny (defs c node)
  match generated c node with
  | none => kept
  | some e => kept.insert e

/-- Every expression of a graph. -/
def expressions (c : DataFlowConfig) (g : Graph) : ExpressionSet :=
  Std.ExtTreeSet.ofList (g.nodes.toList.filterMap (expressionOf c))

def problem (c : DataFlowConfig) : Problem ExpressionSet where
  name := "available expressions"
  direction := .forward
  boundary _ := ∅
  initial := expressions c
  meet a b := a.filter b.contains
  transfer _ := transfer c

/-- How often a fact can change: once for every expression in the graph. -/
def height (c : DataFlowConfig) (g : Graph) : Nat :=
  (expressions c g).size

end AvailableExpressions

/-- The expressions available at each node. -/
def availableExpressions (c : DataFlowConfig) (g : Graph) : Solution ExpressionSet :=
  let problem := AvailableExpressions.problem c
  problem.solve g <|
    (c.maxIterations.map UInt64.toNat).getD
      (problem.allowance g (AvailableExpressions.height c g))

end ProgramGraph.DataFlow
