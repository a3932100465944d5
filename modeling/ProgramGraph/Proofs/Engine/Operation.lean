import ProgramGraph.Proofs.Engine.Footprint

/-!
# Operations of an engine

`Operation` lists what can be asked of an engine, and `Engine.perform` gives the answer and the
engine after it. Operations fall into families. The family of an operation says under which names
it writes node properties (`Family.writes`), and which of these its answer can depend on
(`Family.Reads`); the caller's own problems and hooks are given whole nodes and can read everything.

* `Engine.agreesOff_perform`: an operation writes under the names of its family and nowhere else.
* `Engine.perform_congr`: on graphs that agree on what its family reads, an operation gives the same
  answer and leaves graphs that agree again.
-/

namespace ProgramGraph

open ProgramGraph.Graph (AgreesOff)

/-- What can be asked of an engine. -/
inductive Operation : Type 1 where
  | taint (entry : Option NodeId)
  | taintAll
  | slice (criterion : Option NodeId) (kind : Slice.Kind)
  | chop (source target : Option NodeId)
  | extendForward (n : Option NodeId) (members : NodeSet)
  | sliceMany (criteria : List NodeId) (kind : Slice.Kind)
  | solve {Fact : Type} [DecidableEq Fact] (P : DataFlow.Problem Fact)
  | reachingDefinitions
  | liveVariables
  | availableExpressions
  | constantPropagation
  | execute (entry : Option NodeId)
  | executeWith {State Memory : Type} [DecidableEq State] (hooks : Execution.Hooks State Memory)
      (entry : Option NodeId) (s : State) (m : Memory)

namespace Operation

/-- The type of the answer to an operation. -/
def Answer : Operation → Type
  | taint _ => Taint.Result
  | taintAll => Taint.Result
  | slice _ _ => Slice.Result
  | chop _ _ => Slice.Result
  | extendForward _ _ => NodeSet
  | sliceMany _ _ => List Slice.Result
  | @solve Fact _ _ => Option (DataFlow.Solution Fact)
  | reachingDefinitions => DataFlow.Solution DataFlow.DefinitionSet
  | liveVariables => DataFlow.Solution NameSet
  | availableExpressions => DataFlow.Solution DataFlow.ExpressionSet
  | constantPropagation => DataFlow.Solution DataFlow.ConstantMap
  | execute _ => Execution.Trace Bag
  | @executeWith State Memory _ _ _ _ _ => Execution.Trace State × Memory

/-! ### Families -/

/-- Operations that write, and can read, under the same names. -/
inductive Family where
  | taint
  | slicing
  | dataFlow
  /-- Data flow problems of the caller's own. -/
  | ownProblem
  | execution
  /-- Executions with hooks of the caller's own. -/
  | ownHooks
deriving DecidableEq

/-- The family that an operation belongs to. -/
def family : Operation → Family
  | taint _ | taintAll => .taint
  | slice _ _ | chop _ _ | extendForward _ _ | sliceMany _ _ => .slicing
  | solve _ => .ownProblem
  | reachingDefinitions | liveVariables | availableExpressions | constantPropagation => .dataFlow
  | execute _ => .execution
  | executeWith _ _ _ _ => .ownHooks

namespace Family

/-- Executions, with or without hooks. -/
def executes : Family → Bool
  | execution | ownHooks => true
  | _ => false

/-- The names under which node properties are written. -/
def writes (c : Config) : Family → List String
  | taint => [c.taint.key]
  | execution | ownHooks => [c.execution.markerKey]
  | slicing | dataFlow | ownProblem => []

/-- Can an answer depend on the node properties under this name? -/
def Reads (c : Config) (key : String) : Family → Prop
  | taint => key = c.taint.key
  | dataFlow => key ∈ DataFlow.statementKeys c.dataFlow
  | slicing | execution => False
  | ownProblem | ownHooks => True

/-- Only the key of the taint and the key of the marker are ever written under. -/
theorem writes_subset (c : Config) (f : Family) :
    f.writes c ⊆ [c.taint.key, c.execution.markerKey] := by
  cases f <;> simp [writes]

end Family

end Operation

/-! ### What an operation writes -/

namespace Taint

/-- A taint run writes under its key only. -/
theorem agreesOff_analyze (c : TaintConfig) (g : Graph) (entry : Option NodeId) :
    AgreesOff [c.key] g (analyze c g entry).2 :=
  Graph.agreesOff_setProperties g _ c.key c.value

/-- And so do runs from one entry after the other. -/
theorem agreesOff_analyzeEach (c : TaintConfig) (g : Graph) (entries : List NodeId) :
    AgreesOff [c.key] g (analyzeEach c g entries).2 := by
  induction entries generalizing g with
  | nil => exact AgreesOff.refl _ g
  | cons entry entries ih => exact (agreesOff_analyze c g (some entry)).trans (ih _)

end Taint

/-- Markers are written under their key only. -/
theorem Execution.agreesOff_writeMarkers {State : Type} (c : ExecutionConfig) (g : Graph)
    (t : Trace State) : AgreesOff [c.markerKey] g (writeMarkers c g t) := by
  rw [writeMarkers]
  split
  · exact Graph.agreesOff_setProperties g _ c.markerKey c.markerValue
  · exact AgreesOff.refl _ g

namespace Engine

/-- Performs an operation: its answer, and the engine after it. -/
def perform (e : Engine) : (op : Operation) → op.Answer × Engine
  | .taint entry => e.taint entry
  | .taintAll => e.taintAll
  | .slice criterion kind => (e.slice criterion kind, e)
  | .chop source target => (e.chop source target, e)
  | .extendForward n members => (e.extendForward n members, e)
  | .sliceMany criteria kind => (e.sliceMany criteria kind, e)
  | @Operation.solve _ _ P => (e.solve P, e)
  | .reachingDefinitions => (e.reachingDefinitions, e)
  | .liveVariables => (e.liveVariables, e)
  | .availableExpressions => (e.availableExpressions, e)
  | .constantPropagation => (e.constantPropagation, e)
  | .execute entry => e.execute entry
  | @Operation.executeWith _ _ _ hooks entry s m =>
    let (t, e', m') := e.executeWith hooks entry s m
    ((t, m'), e')

/-- The engine after some operations. -/
def after (e : Engine) (ops : List Operation) : Engine :=
  ops.foldl (fun e op => (e.perform op).2) e

/-- No operation changes the settings. -/
@[simp]
theorem config_perform (e : Engine) (op : Operation) : (e.perform op).2.config = e.config := by
  cases op <;> rfl

theorem after_cons (e : Engine) (op : Operation) (ops : List Operation) :
    e.after (op :: ops) = (e.perform op).2.after ops := rfl

/-- Operations can be performed in two goes. -/
theorem after_append (e : Engine) (ops later : List Operation) :
    e.after (ops ++ later) = (e.after ops).after later :=
  List.foldl_append

@[simp]
theorem config_after (e : Engine) (ops : List Operation) : (e.after ops).config = e.config := by
  induction ops generalizing e with
  | nil => rfl
  | cons op ops ih => rw [after_cons, ih, config_perform]

/-- **An operation writes under the names of its family** and changes nothing else of the graph. -/
theorem agreesOff_perform (e : Engine) (op : Operation) :
    AgreesOff (op.family.writes e.config) e.graph (e.perform op).2.graph := by
  cases op with
  | taint entry => exact Taint.agreesOff_analyze e.config.taint e.graph entry
  | taintAll => exact Taint.agreesOff_analyzeEach e.config.taint e.graph _
  | execute entry => exact Execution.agreesOff_writeMarkers e.config.execution e.graph _
  | executeWith hooks entry s m =>
    exact Execution.agreesOff_writeMarkers e.config.execution e.graph _
  | _ => exact AgreesOff.refl [] e.graph

/-! ### What an operation reads -/

/-- **An operation reads under the names of its family.** On graphs that agree on these it gives the
same answer, and what it writes leaves the graphs in agreement. -/
theorem perform_congr {e e' : Engine} {keys : List String} {op : Operation}
    (hconfig : e'.config = e.config) (hgraph : AgreesOff keys e.graph e'.graph)
    (hreads : ∀ key ∈ keys, ¬ op.family.Reads e.config key) :
    (e'.perform op).1 = (e.perform op).1 ∧
      AgreesOff keys (e.perform op).2.graph (e'.perform op).2.graph := by
  obtain ⟨c, g, holders, hvalid⟩ := e
  obtain ⟨c', g', holders', hvalid'⟩ := e'
  dsimp only at hconfig hgraph hreads
  subst hconfig
  have hs := hgraph.toSameShape
  -- what can read everything is given the same graph
  have hsame : (∀ key, op.family.Reads c' key) → g' = g := by
    intro hall
    have hkeys : keys = [] :=
      List.eq_nil_iff_forall_not_mem.mpr fun key hkey => hreads key hkey (hall key)
    rw [hkeys] at hgraph
    exact hgraph.eq_of_nil
  have hstatements : op.family = .dataFlow → DataFlow.SameStatements c'.dataFlow g g' := by
    intro hfamily
    rw [hfamily] at hreads
    exact DataFlow.sameStatements_of_agreesOff hgraph fun key hread hkey => hreads key hkey hread
  cases op with
  | taint entry => exact Taint.analyze_congr hgraph (fun hkey => hreads _ hkey rfl) entry
  | taintAll => exact Taint.propagateAll_congr hgraph fun hkey => hreads _ hkey rfl
  | slice criterion kind =>
    exact ⟨congrFun₂ (Slice.slice_congr hs c'.slicing) criterion kind, hgraph⟩
  | chop source target =>
    exact ⟨congrFun₂ (Slice.chop_congr hs c'.slicing) source target, hgraph⟩
  | extendForward n members =>
    exact ⟨congrFun₂ (Slice.extendForward_congr hs c'.slicing) n members, hgraph⟩
  | sliceMany criteria kind =>
    have hslice := fun n => congrFun₂ (Slice.slice_congr hs c'.slicing) (some n) kind
    exact ⟨List.map_congr_left fun n _ => hslice n, hgraph⟩
  | solve P =>
    cases hsame fun _ => trivial
    exact ⟨rfl, AgreesOff.refl keys g⟩
  | reachingDefinitions =>
    exact ⟨DataFlow.reachingDefinitions_congr hs (hstatements rfl), hgraph⟩
  | liveVariables => exact ⟨DataFlow.liveVariables_congr hs (hstatements rfl), hgraph⟩
  | availableExpressions =>
    exact ⟨DataFlow.availableExpressions_congr hs (hstatements rfl), hgraph⟩
  | constantPropagation =>
    exact ⟨DataFlow.constantPropagation_congr hs (hstatements rfl), hgraph⟩
  | execute entry =>
    exact Execution.execute_congr hgraph Execution.sameTransfer_pass c'.execution entry ∅ ()
  | executeWith hooks entry s m =>
    cases hsame fun _ => trivial
    exact ⟨rfl, AgreesOff.refl keys _⟩

end Engine

end ProgramGraph
