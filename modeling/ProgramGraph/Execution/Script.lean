import ProgramGraph.Execution.Hooks

/-!
# Scripted hooks

Hooks on bags given as data: a list of actions that every node applies to the state, and a list of
rules that decide what goes on along an edge. Scripted hooks remember which nodes and edges they
were asked for.
-/

namespace ProgramGraph.Execution

/-- What a node does to a state. -/
inductive Action where
  /-- Writes a text. -/
  | set (key value : String)
  /-- Writes the identifier of the node, if it starts with `stem`. -/
  | setId (key stem : String)
  /-- Counts up by one, modulo `modulus` if there is one; what is no number counts as zero. -/
  | count (key : String) (modulus : Option Nat)
  /-- Writes a property of the node, if it is not empty. -/
  | copy (property key : String)
  /-- Appends the identifier of the node. -/
  | append (key : String)
  /-- Removes a name. -/
  | erase (key : String)
deriving DecidableEq, Repr

/-- Applies an action. -/
def Action.apply (node : Node) (s : Bag) : Action → Bag
  | set key value => s.set key value
  | setId key stem => if node.id.startsWith stem then s.set key node.id else s
  | count key modulus =>
    let n := (Text.readWord64? (s.get key)).getD 0 + 1
    s.set key (toString (match modulus with
      | none => n
      | some k => n % k))
  | copy property key =>
    let value := node.properties.get property
    if value.isEmpty then s else s.set key value
  | append key => s.set key (s.get key ++ node.id)
  | erase key => s.erase key

/-- What decides whether and how a state goes on along an edge. -/
inductive Rule where
  /-- Prunes if a property of the edge is a given text. -/
  | pruneProperty (property value : String)
  /-- Prunes if the state holds a given text. -/
  | pruneState (key value : String)
  /-- Prunes if a property of the edge is not empty and differs from the text in the state. -/
  | guard (property key : String)
  /-- Writes a property of the edge, if it is not empty. -/
  | copy (property key : String)
  /-- Writes the identifier of the edge. -/
  | setId (key : String)
deriving DecidableEq, Repr

/-- Applies a rule; none means that the branch is pruned. -/
def Rule.apply (edge : Edge) (s : Bag) : Rule → Option Bag
  | pruneProperty property value => if edge.properties.get property = value then none else some s
  | pruneState key value => if s.get key = value then none else some s
  | guard property key =>
    let value := edge.properties.get property
    if !value.isEmpty && value != s.get key then none else some s
  | copy property key =>
    let value := edge.properties.get property
    some (if value.isEmpty then s else s.set key value)
  | setId key => some (s.set key edge.id)

/-- Which nodes and edges the hooks were asked for, by identifier and in order. -/
structure Log where
  transfers : Array String := #[]
  forks : Array String := #[]
deriving DecidableEq, Repr, Inhabited

/-- Actions for nodes and rules for edges. -/
structure Script where
  actions : List Action := []
  rules : List Rule := []
deriving DecidableEq, Repr, Inhabited

/-- The hooks that follow a script. -/
def Script.hooks (script : Script) : Hooks Bag Log where
  transfer node s log :=
    (script.actions.foldl (Action.apply node) s,
      { log with transfers := log.transfers.push node.id })
  fork edge s log :=
    (script.rules.foldlM (Rule.apply edge) s, { log with forks := log.forks.push edge.id })

end ProgramGraph.Execution
