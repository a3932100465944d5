import ProgramGraph.DataFlow.Problem
import ProgramGraph.DataFlow.Statement

/-!
# Constant propagation

Which variables hold the same literal on every way to a node. A variable that is not in the map
has not been defined on any way yet. A node that assigns a literal gives it to all variables it
defines; a node without a literal that uses exactly one variable copies what is known of that
variable; any other node makes what it defines varying.
-/

namespace ProgramGraph.DataFlow

/-- What is known of a variable that has been defined. -/
inductive ConstantValue where
  /-- The same literal on every way. -/
  | constant (literal : String)
  /-- Not one literal. -/
  | varying
deriving DecidableEq, Repr

/-- What is known of each variable. -/
abbrev ConstantMap := Std.ExtTreeMap String ConstantValue

namespace ConstantPropagation

/-- Joins what is known of one variable: two different values make it varying. -/
def join (a b : ConstantValue) : ConstantValue :=
  if a = b then a else .varying

/-- Joins what is known of every variable. -/
def meet (a b : ConstantMap) : ConstantMap :=
  b.foldl (fun joined v value => joined.alter v fun
    | none => some value
    | some known => some (join known value)) a

/-- What a node assigns, from what is known before it; none leaves the variables undefined. -/
def assigned (c : DataFlowConfig) (node : Node) (fact : ConstantMap) : Option ConstantValue :=
  let literal := node.properties.get c.valueKey
  if !literal.isEmpty then some (.constant literal)
  else match (uses c node).toList with
    | [source] => fact[source]?
    | _ => some .varying

/-- What is known after a node. -/
def transfer (c : DataFlowConfig) (node : Node) (fact : ConstantMap) : ConstantMap :=
  let value := assigned c node fact
  (defs c node).foldl (fun known v => known.alter v fun _ => value) fact

def problem (c : DataFlowConfig) : Problem ConstantMap where
  name := "constant propagation"
  direction := .forward
  boundary _ := ∅
  initial _ := ∅
  meet := meet
  transfer _ := transfer c

/-- How often a fact can change: twice for every variable that is defined in the graph. -/
def height (c : DataFlowConfig) (g : Graph) : Nat :=
  2 * (g.nodes.toList.foldl (fun defined node => defined ∪ defs c node) (∅ : NameSet)).size

end ConstantPropagation

/-- What is known of the variables at each node. -/
def constantPropagation (c : DataFlowConfig) (g : Graph) : Solution ConstantMap :=
  let problem := ConstantPropagation.problem c
  problem.solve g <|
    (c.maxIterations.map UInt64.toNat).getD
      (problem.allowance g (ConstantPropagation.height c g))

end ProgramGraph.DataFlow
