import Mathlib.Data.Option.Basic
import ProgramGraph.DataFlow.Statement

/-!
# Variables and expressions at the nodes of a graph

What a node says about variables, as relations between nodes of a graph and names. A handle that
does not resolve defines, uses and computes nothing.
-/

namespace ProgramGraph.DataFlow

variable {c : DataFlowConfig} {g : Graph} {n : NodeId} {node : Node} {v : String}

/-! ### Variables -/

/-- The node defines the variable. -/
def Defines (c : DataFlowConfig) (g : Graph) (n : NodeId) (v : String) : Prop :=
  ∃ node, g.node? n = some node ∧ v ∈ defs c node

/-- The node uses the variable. -/
def Uses (c : DataFlowConfig) (g : Graph) (n : NodeId) (v : String) : Prop :=
  ∃ node, g.node? n = some node ∧ v ∈ uses c node

/-- A node of the graph defines the variables of its list. -/
theorem defines_iff (hn : g.node? n = some node) : Defines c g n v ↔ v ∈ defs c node := by
  simp [Defines, hn]

/-- A node of the graph uses the variables of its list. -/
theorem uses_iff (hn : g.node? n = some node) : Uses c g n v ↔ v ∈ uses c node := by
  simp [Uses, hn]

instance (c : DataFlowConfig) (g : Graph) (n : NodeId) (v : String) : Decidable (Defines c g n v) :=
  inferInstanceAs (Decidable (∃ node, g.node? n = some node ∧ v ∈ defs c node))

instance (c : DataFlowConfig) (g : Graph) (n : NodeId) (v : String) : Decidable (Uses c g n v) :=
  inferInstanceAs (Decidable (∃ node, g.node? n = some node ∧ v ∈ uses c node))

/-! ### Expressions -/

/-- The node computes the expression. -/
def Computes (c : DataFlowConfig) (g : Graph) (n : NodeId) (e : Expression) : Prop :=
  ∃ node, g.node? n = some node ∧ expressionOf c node = some e

/-- The node defines a variable that the expression reads. -/
def Kills (c : DataFlowConfig) (g : Graph) (n : NodeId) (e : Expression) : Prop :=
  ∃ v ∈ e.operands, Defines c g n v

/-- The node computes the expression, and it still has its value afterwards. -/
def Generates (c : DataFlowConfig) (g : Graph) (n : NodeId) (e : Expression) : Prop :=
  Computes c g n e ∧ ¬ Kills c g n e

variable {e : Expression} {names : NameSet}

/-- An expression reads a set of names if one of them is an operand. -/
theorem readsAny_iff : e.readsAny names = true ↔ ∃ v ∈ e.operands, v ∈ names := by
  simp [Expression.readsAny]

/-- A node of the graph computes the expression of its statement. -/
theorem computes_iff (hn : g.node? n = some node) :
    Computes c g n e ↔ expressionOf c node = some e := by
  simp [Computes, hn]

/-- A node of the graph kills what reads a variable it defines. -/
theorem kills_iff (hn : g.node? n = some node) :
    Kills c g n e ↔ e.readsAny (defs c node) = true := by
  simp only [Kills, defines_iff hn, readsAny_iff]

instance (c : DataFlowConfig) (g : Graph) (n : NodeId) (e : Expression) :
    Decidable (Computes c g n e) :=
  inferInstanceAs (Decidable (∃ node, g.node? n = some node ∧ expressionOf c node = some e))

instance (c : DataFlowConfig) (g : Graph) (n : NodeId) (e : Expression) :
    Decidable (Kills c g n e) :=
  decidable_of_iff (∃ v ∈ e.operands.toList, Defines c g n v) (by
    simp only [Std.ExtTreeSet.mem_toList, Kills])

instance (c : DataFlowConfig) (g : Graph) (n : NodeId) (e : Expression) :
    Decidable (Generates c g n e) :=
  inferInstanceAs (Decidable (Computes c g n e ∧ ¬ Kills c g n e))

end ProgramGraph.DataFlow
