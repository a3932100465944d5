import ProgramGraph.Proofs.Config.Validate
import ProgramGraph.Proofs.Engine.Operation
import ProgramGraph.Proofs.Execution.Coverage
import ProgramGraph.Proofs.Taint.Exactness

/-!
# How long taint marks last

Taint propagation adds marks and takes none away. Executions leave a marker on the nodes that they
process. Its name and text are settings of another stage, and a configuration is valid whatever the
two stages have in common. If the names are equal and the texts are not, the marker takes the place
of the mark (`Config.Overwrites`).

`keepsMarks_iff_not_overwrites`: this is the only way in which a mark can be lost, and where it can
happen it does: an operation then takes the marks from exactly the marked nodes that it processes.
-/

namespace ProgramGraph

/-- The marker of executions takes the place of taint marks. -/
def Config.Overwrites (c : Config) : Prop :=
  c.execution.markNodes = true ∧ c.execution.markerKey = c.taint.key ∧
    c.execution.markerValue ≠ c.taint.value

instance (c : Config) : Decidable c.Overwrites :=
  inferInstanceAs (Decidable (_ ∧ _ ∧ _))

/-! ### What the two stages write -/

namespace Taint

variable {c : TaintConfig} {n : NodeId}

/-- Taint runs do not remove marks. -/
theorem carries_analyze {g : Graph} (hn : carries c g n = true) (entry : Option NodeId) :
    carries c (analyze c g entry).2 n = true :=
  (carries_writeMarks c g _ n).mpr (Or.inl hn)

/-- And neither do several of them. -/
theorem carries_analyzeEach {g : Graph} (hn : carries c g n = true) (entries : List NodeId) :
    carries c (analyzeEach c g entries).2 n = true := by
  induction entries generalizing g with
  | nil => exact hn
  | cons entry entries ih => exact ih (carries_analyze hn (some entry))

end Taint

/-- Writing the markers of a trace takes the marks from its nodes, if it overwrites marks. -/
theorem Execution.carries_writeMarkers_eq_false_iff {State : Type} {c : Config} {g : Graph}
    {t : Trace State} {n : NodeId} (ht : ∀ m ∈ t.processed, g.contains m = true)
    (hn : Taint.carries c.taint g n = true) :
    Taint.carries c.taint (writeMarkers c.execution g t) n = false ↔
      c.Overwrites ∧ n ∈ t.processed := by
  rw [Taint.carries, beq_iff_eq] at hn
  rw [Taint.carries, writeMarkers, Config.Overwrites, beq_eq_false_iff_ne]
  cases hmark : c.execution.markNodes with
  | false => simp [hn]
  | true =>
    rw [if_pos rfl, Graph.property_setProperties]
    by_cases hwritten : n ∈ t.processed ∧ c.execution.markerKey = c.taint.key
    · simp [hwritten.1, hwritten.2, ht n hwritten.1]
    · have hkept : ¬ (n ∈ t.processed ∧ g.contains n = true ∧
          c.execution.markerKey = c.taint.key) := fun h => hwritten ⟨h.1, h.2.2⟩
      rw [if_neg hkept, hn]
      simp only [ne_eq, not_true_eq_false, false_iff]
      exact fun h => hwritten ⟨h.2, h.1.2.1⟩

namespace Engine

/-! ### One operation -/

/-- Does the node carry the taint mark? -/
def marked (e : Engine) (n : NodeId) : Bool :=
  Taint.carries e.config.taint e.graph n

/-- The nodes that an operation processes, which only executions do. -/
def processed (e : Engine) : Operation → List NodeId
  | .execute entry => (e.execute entry).1.processed
  | @Operation.executeWith _ _ _ hooks entry s m => (e.executeWith hooks entry s m).1.processed
  | _ => []

/-- **An operation takes the mark from a node** exactly if it processes the node and its marker
takes the place of the mark. -/
theorem marked_perform_eq_false_iff {e : Engine} {n : NodeId} (hn : e.marked n = true)
    (op : Operation) :
    (e.perform op).2.marked n = false ↔ e.config.Overwrites ∧ n ∈ e.processed op := by
  -- an operation that processes nothing must leave the mark
  have hleft : (e.perform op).2.marked n = true → e.processed op = [] →
      ((e.perform op).2.marked n = false ↔ e.config.Overwrites ∧ n ∈ e.processed op) := by
    intro hmarked hnil
    simp [hmarked, hnil]
  cases op with
  | taint entry => exact hleft (Taint.carries_analyze hn entry) rfl
  | taintAll => exact hleft (Taint.carries_analyzeEach hn _) rfl
  | execute entry =>
    exact Execution.carries_writeMarkers_eq_false_iff
      (fun _ => Execution.contains_of_mem_processed_run) hn
  | executeWith hooks entry s m =>
    exact Execution.carries_writeMarkers_eq_false_iff
      (fun _ => Execution.contains_of_mem_processed_run) hn
  | _ => exact hleft hn rfl

/-! ### Sequences of operations -/

/-- **Marks last**, whatever is done, if markers do not take their place. -/
theorem marked_after {e : Engine} {n : NodeId} (hkeeps : ¬ e.config.Overwrites)
    (hn : e.marked n = true) (ops : List Operation) : (e.after ops).marked n = true := by
  induction ops generalizing e with
  | nil => exact hn
  | cons op ops ih =>
    rw [after_cons]
    refine ih (by rwa [config_perform]) ?_
    rw [← Bool.not_eq_false, marked_perform_eq_false_iff hn]
    exact fun hlost => hkeeps hlost.1

/-- No node loses the mark in any sequence of operations. -/
def KeepsMarks (c : Config) : Prop :=
  ∀ e : Engine, e.config = c → ∀ (ops later : List Operation) (n : NodeId),
    (e.after ops).marked n = true → (e.after (ops ++ later)).marked n = true

/-- An engine for a single node, which carries the mark. -/
def lone (c : Config) (hc : c.validate = .ok ()) : Engine where
  config := c
  graph := (Graph.addNode ∅ "n").2.setProperty ⟨0⟩ c.taint.key c.taint.value
  valid := hc

section Lone

variable {c : Config} (hc : c.validate = .ok ())

/-- The node of the smallest engine is marked. -/
theorem marked_lone : (lone c hc).marked ⟨0⟩ = true := by
  have hcontains : (Graph.addNode ∅ "n").2.contains ⟨0⟩ = true := rfl
  simp [marked, Taint.carries, lone, Graph.property_setProperty, hcontains]

/-- The budgets of a valid configuration let an execution process its entry. -/
theorem mem_processed_lone : ⟨0⟩ ∈ (lone c hc).processed (.execute (some ⟨0⟩)) := by
  obtain ⟨-, -, hexecution, -⟩ := Config.validate_eq_ok_iff.mp hc
  have hbudget : Execution.overBudget c.execution 0 0 = false := by
    have hstates := ExecutionConfig.one_le_maxStates hexecution
    simp only [Execution.overBudget, Bool.or_eq_false_iff, Option.any_eq_false,
      decide_eq_false_iff_not]
    exact ⟨fun _ _ => Nat.not_lt_zero _, fun n hn => Nat.not_le.mpr (hstates n hn)⟩
  have hresolve : (lone c hc).graph.resolve (some ⟨0⟩) = some ⟨0⟩ := by
    rw [lone, (Graph.sameShape_setProperty _ _ _ _).resolve_eq]
    rfl
  exact Execution.Trace.mem_processed.mpr (Execution.mem_states_run_entry hresolve hbudget)

end Lone

/-- **When marks last.** Under a valid configuration no mark is ever lost, on any graph and in any
sequence of operations, exactly if markers do not take the place of marks. An operation takes the
mark from exactly the nodes that it processes if they do, and from none if they do not. -/
theorem keepsMarks_iff_not_overwrites (c : Config) (hc : c.validate = .ok ()) :
    (KeepsMarks c ↔ ¬ c.Overwrites) ∧
      ∀ e : Engine, e.config = c → ∀ (op : Operation) (n : NodeId), e.marked n = true →
        ((e.perform op).2.marked n = false ↔ c.Overwrites ∧ n ∈ e.processed op) := by
  refine ⟨⟨fun hkeeps hover => ?_, ?_⟩, ?_⟩
  · have hlost := (marked_perform_eq_false_iff (marked_lone hc) _).mpr
      ⟨hover, mem_processed_lone hc⟩
    have hkept := hkeeps (lone c hc) rfl [] [.execute (some ⟨0⟩)] ⟨0⟩ (marked_lone hc)
    exact Bool.false_ne_true (hlost.symm.trans hkept)
  · rintro hkeeps e rfl ops later n hn
    rw [after_append]
    refine marked_after ?_ hn later
    rwa [config_after]
  · rintro e rfl op n hn
    exact marked_perform_eq_false_iff hn op

/-- The default settings keep marks, and so do settings that share a name if the texts agree. -/
theorem keepsMarks_default_and_shared :
    let c : Config := {}
    let shared : Config := { execution := { markerKey := "tainted", markerValue := "true" } }
    c.validate = .ok () ∧ KeepsMarks c ∧ shared.validate = .ok () ∧ KeepsMarks shared := by
  intro c shared
  exact ⟨rfl, (keepsMarks_iff_not_overwrites c rfl).1.mpr (by decide), rfl,
    (keepsMarks_iff_not_overwrites shared rfl).1.mpr (by decide)⟩

/-- A valid configuration that shares the name only: an execution takes the mark from a node. -/
theorem not_keepsMarks_shared_name :
    let c : Config := { execution := { markerKey := "tainted" } }
    let e := lone c rfl
    c.validate = .ok () ∧ (e.after []).marked ⟨0⟩ = true ∧
      (e.after [.execute (some ⟨0⟩)]).marked ⟨0⟩ = false ∧ ¬ KeepsMarks c := by
  intro c e
  have hbefore : (e.after []).marked ⟨0⟩ = true := by decide +kernel
  have hafter : (e.after [.execute (some ⟨0⟩)]).marked ⟨0⟩ = false := by decide +kernel
  refine ⟨rfl, hbefore, hafter, fun hkeeps => ?_⟩
  exact Bool.false_ne_true (hafter.symm.trans (hkeeps e rfl [] _ ⟨0⟩ hbefore))

end Engine

end ProgramGraph
