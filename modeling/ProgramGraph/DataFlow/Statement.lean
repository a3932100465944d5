import ProgramGraph.Config.Stage
import ProgramGraph.Graph.Basic
import ProgramGraph.Text.Blank

/-!
# What a node says about variables

The properties of a node describe a statement: which variables it defines and uses, as comma
lists, the text of the expression it computes, and the literal it assigns. Here they are read.
-/

namespace ProgramGraph.DataFlow

/-- The variables listed in a property. -/
def listedVariables (node : Node) (key : String) : NameSet :=
  Std.ExtTreeSet.ofList (Text.commaList (node.properties.get key))

/-- The variables that a node defines. -/
def defs (c : DataFlowConfig) (node : Node) : NameSet :=
  listedVariables node c.defsKey

/-- The variables that a node uses. -/
def uses (c : DataFlowConfig) (node : Node) : NameSet :=
  listedVariables node c.usesKey

/-- The definition of a variable by a node. -/
structure Definition where
  variableName : String
  node : NodeId
deriving DecidableEq, Repr

namespace Definition

/-- Definitions are ordered by variable, then by node. -/
instance : Ord Definition := ⟨compareLex (compareOn variableName) (compareOn node)⟩

instance : Std.TransOrd Definition :=
  inferInstanceAs (Std.TransCmp (compareLex (compareOn variableName) (compareOn node)))

instance : Std.LawfulEqOrd Definition where
  eq_of_compare {a b} h := by
    obtain ⟨h₁, h₂⟩ := compareLex_eq_eq.1 h
    have hv : a.variableName = b.variableName := Std.LawfulEqOrd.eq_of_compare h₁
    have hn : a.node = b.node := Std.LawfulEqOrd.eq_of_compare h₂
    cases a
    cases b
    simp_all

end Definition

/-- An expression: its text and the variables it reads. -/
structure Expression where
  text : String
  operands : NameSet
deriving DecidableEq

namespace Expression

/-- Expressions are ordered by text, then by their operands in order. -/
instance : Ord Expression := ⟨compareLex (compareOn text) (compareOn fun e => e.operands.toList)⟩

instance : Std.TransOrd Expression :=
  inferInstanceAs
    (Std.TransCmp (compareLex (compareOn text) (compareOn fun e => e.operands.toList)))

instance : Std.LawfulEqOrd Expression where
  eq_of_compare {a b} h := by
    obtain ⟨h₁, h₂⟩ := compareLex_eq_eq.1 h
    have ht : a.text = b.text := Std.LawfulEqOrd.eq_of_compare h₁
    have ho : a.operands.toList = b.operands.toList := Std.LawfulEqOrd.eq_of_compare h₂
    cases a
    cases b
    simp_all [Std.ExtTreeSet.toList_inj]

/-- Does the expression read one of the variables? -/
def readsAny (e : Expression) (names : NameSet) : Bool :=
  e.operands.toList.any names.contains

end Expression

/-- The expression that a node computes: the trimmed text of a property, if there is any, with the
variables that the node uses as operands. -/
def expressionOf (c : DataFlowConfig) (node : Node) : Option Expression :=
  let text := Text.trim (node.properties.get c.exprKey)
  if text.isEmpty then none else some { text, operands := uses c node }

end ProgramGraph.DataFlow
