import ProgramGraph.Config.Basic
import ProgramGraph.DataFlow.AvailableExpressions
import ProgramGraph.DataFlow.ConstantPropagation
import ProgramGraph.DataFlow.LiveVariables
import ProgramGraph.DataFlow.ReachingDefinitions
import ProgramGraph.DataFlow.StepCount
import ProgramGraph.Execution.Walk
import ProgramGraph.Slice.Basic
import ProgramGraph.Taint.Propagation

/-!
# The engine

An `Engine` runs every analysis on one graph with one valid configuration. Taint propagation and
execution write to the graph, so they also give the engine after the run; all other analyses only
read it.

Others may hold the graph together with the engine. `Engine.intoGraph` gives the graph away, which
fails while it is held.
-/

namespace ProgramGraph

universe u v

/-- A graph, a valid configuration for the analyses of it, and how many others hold the graph. -/
structure Engine where
  config : Config
  graph : Graph
  holders : Nat := 0
  valid : config.validate = .ok ()

namespace Engine

/-- An engine for a graph, if the configuration is valid. -/
def ofGraph (g : Graph) (c : Config) (holders : Nat) : Except Error Engine :=
  match h : c.validate with
  | .ok () => .ok { config := c, graph := g, holders, valid := h }
  | .error cause => .error (.config cause)

/-- An engine for the same graph with another configuration. -/
def reconfigure (e : Engine) (c : Config) : Except Error Engine :=
  ofGraph e.graph c e.holders

/-! ### The graph -/

/-- One more holder of the graph. -/
def hold (e : Engine) : Engine :=
  { e with holders := e.holders + 1 }

/-- One holder of the graph less, if there is one. -/
def release (e : Engine) : Engine :=
  { e with holders := e.holders - 1 }

/-- A holder of the graph writes a property of a node. -/
def setProperty (e : Engine) (n : NodeId) (key value : String) : Engine :=
  { e with graph := e.graph.setProperty n key value }

def findNode (e : Engine) (id : String) : Option NodeId :=
  e.graph.findNode id

def property (e : Engine) (n : NodeId) (key : String) : String :=
  e.graph.property n key

/-- Gives the graph away, unless it is held. -/
def intoGraph (e : Engine) : Except Error Graph :=
  if e.holders = 0 then .ok e.graph
  else .error (.analysis s!"graph still shared by {e.holders} other handles")

/-! ### Analyses that write -/

/-- Propagates taint from an entry. -/
def taint (e : Engine) (entry : Option NodeId) : Taint.Result × Engine :=
  let (r, graph) := Taint.analyze e.config.taint e.graph entry
  (r, { e with graph })

/-- Propagates taint from every tainted node. -/
def taintAll (e : Engine) : Taint.Result × Engine :=
  let (r, graph) := Taint.propagateAll e.config.taint e.graph
  (r, { e with graph })

/-- Executes from an entry with hooks and a state. -/
def executeWith {State : Type u} {Memory : Type v} [DecidableEq State] (e : Engine)
    (h : Execution.Hooks State Memory) (entry : Option NodeId) (s : State) (m : Memory) :
    Execution.Trace State × Engine × Memory :=
  let (t, graph, m) := Execution.execute h e.config.execution e.graph entry s m
  (t, { e with graph }, m)

/-- Executes from an entry with an empty bag and without hooks. -/
def execute (e : Engine) (entry : Option NodeId) : Execution.Trace Bag × Engine :=
  let (t, e, _) := e.executeWith Execution.Hooks.pass entry ∅ ()
  (t, e)

/-! ### Analyses that read -/

def slice (e : Engine) (criterion : Option NodeId) (kind : Slice.Kind) : Slice.Result :=
  Slice.slice e.config.slicing e.graph criterion kind

def chop (e : Engine) (source target : Option NodeId) : Slice.Result :=
  Slice.chop e.config.slicing e.graph source target

/-- Adds the forward slice of a node to a set. -/
def extendForward (e : Engine) (n : Option NodeId) (members : NodeSet) : NodeSet :=
  Slice.extendForward e.config.slicing e.graph n members

def sliceMany (e : Engine) (criteria : List NodeId) (kind : Slice.Kind) : List Slice.Result :=
  Slice.sliceMany e.config.slicing e.graph criteria kind

/-- Solves a data flow problem of the caller's own. Without a budget there is no solution if the
problem does not settle. -/
def solve {Fact : Type} [DecidableEq Fact] (e : Engine) (P : DataFlow.Problem Fact) :
    Option (DataFlow.Solution Fact) :=
  P.solveWithin e.graph e.config.dataFlow.maxIterations

def reachingDefinitions (e : Engine) : DataFlow.Solution DataFlow.DefinitionSet :=
  DataFlow.reachingDefinitions e.config.dataFlow e.graph

def liveVariables (e : Engine) : DataFlow.Solution NameSet :=
  DataFlow.liveVariables e.config.dataFlow e.graph

def availableExpressions (e : Engine) : DataFlow.Solution DataFlow.ExpressionSet :=
  DataFlow.availableExpressions e.config.dataFlow e.graph

def constantPropagation (e : Engine) : DataFlow.Solution DataFlow.ConstantMap :=
  DataFlow.constantPropagation e.config.dataFlow e.graph

end Engine

end ProgramGraph
