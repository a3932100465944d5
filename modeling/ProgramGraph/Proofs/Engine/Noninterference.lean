import ProgramGraph.Graph.Shape
import ProgramGraph.Proofs.Engine.Operation

/-!
# Analyses of one graph do not interfere

An engine performs operations one after the other on the same graph, and some of them write to it.
`Engine.transcript` lists the operations with their answers.

* `transcript_eq_initial`: an answer that depends on nothing that the operations write is the one
  that the engine would have given at the start.
* `filter_transcript_drop`: operations can be dropped without a change in the answers of others,
  unless these read what the dropped operations write, directly or by way of what third ones write.

For the operations at hand, `transcript_noninterference`: slices and executions never depend on what
was done before; taint propagation does not depend on executions, and data flow analyses depend on
neither, if they are configured to use other names.
-/

namespace ProgramGraph

open ProgramGraph.Graph (AgreesOff)
open Operation (Family)

namespace Engine

/-! ### Sequences of operations -/

/-- The operations with their answers. -/
def transcript (e : Engine) : List Operation → List ((op : Operation) × op.Answer)
  | [] => []
  | op :: ops => ⟨op, (e.perform op).1⟩ :: (e.perform op).2.transcript ops

/-- What is written under some names at most, one operation after the other, changes the graph under
these names at most. -/
theorem agreesOff_after {keys : List String} (e : Engine) (ops : List Operation)
    (hwrites : ∀ op ∈ ops, op.family.writes e.config ⊆ keys) :
    AgreesOff keys e.graph (e.after ops).graph := by
  induction ops generalizing e with
  | nil => exact AgreesOff.refl keys e.graph
  | cons op ops ih =>
    obtain ⟨hfirst, hrest⟩ := List.forall_mem_cons.mp hwrites
    rw [after_cons]
    refine ((agreesOff_perform e op).mono hfirst).trans (ih _ ?_)
    simpa only [config_perform] using hrest

/-- **Answers that depend on nothing written are the answers at the start.** -/
theorem transcript_eq_initial {keys : List String} (e : Engine) (ops : List Operation)
    (hwrites : ∀ op ∈ ops, op.family.writes e.config ⊆ keys) {r : (op : Operation) × op.Answer}
    (hr : r ∈ e.transcript ops) (hreads : ∀ key ∈ keys, ¬ r.1.family.Reads e.config key) :
    r.2 = (e.perform r.1).1 := by
  induction ops generalizing e with
  | nil => exact absurd hr List.not_mem_nil
  | cons op ops ih =>
    obtain ⟨hfirst, hrest⟩ := List.forall_mem_cons.mp hwrites
    rcases List.mem_cons.mp hr with rfl | hr
    · rfl
    · have hlater : r.2 = ((e.perform op).2.perform r.1).1 :=
        ih _ (by simpa only [config_perform] using hrest) hr
          (by simpa only [config_perform] using hreads)
      have hgraph := (agreesOff_perform e op).mono hfirst
      exact hlater.trans (perform_congr (config_perform e op) hgraph hreads).1

/-- **Operations can be dropped** that write under some names at most, and the operations that are
watched answer the same. Of the operations that stay, each either reads nothing under these names,
or writes nothing elsewhere and is not watched. -/
theorem filter_transcript_drop (keys : List String) (drop watch : Family → Bool) {e e' : Engine}
    (hconfig : e'.config = e.config) (hgraph : AgreesOff keys e.graph e'.graph)
    (hdrop : ∀ f, drop f = true → f.writes e.config ⊆ keys ∧ watch f = false)
    (hstay : ∀ f, drop f = false → (∀ key ∈ keys, ¬ f.Reads e.config key) ∨
      f.writes e.config ⊆ keys ∧ watch f = false) (ops : List Operation) :
    (e.transcript ops).filter (watch ·.1.family) =
      (e'.transcript (ops.filter (!drop ·.family))).filter (watch ·.1.family) := by
  -- the engine that performs everything, and the one that does not, keep graphs that agree
  induction ops generalizing e e' with
  | nil => rfl
  | cons op ops ih =>
    have hkept : ∀ {e₁ : Engine}, e₁.config = e.config →
        AgreesOff keys (e.perform op).2.graph e₁.graph →
        ((e.perform op).2.transcript ops).filter (watch ·.1.family) =
          (e₁.transcript (ops.filter (!drop ·.family))).filter (watch ·.1.family) := by
      intro e₁ hconfig₁ hgraph₁
      refine ih (hconfig₁.trans (config_perform e op).symm) hgraph₁ ?_ ?_
      · simpa only [config_perform] using hdrop
      · simpa only [config_perform] using hstay
    -- an operation that writes under the names only is not seen, whether it is performed or not
    have hunseen : op.family.writes e.config ⊆ keys →
        AgreesOff keys (e.perform op).2.graph e'.graph := fun hwrites =>
      ((agreesOff_perform e op).mono hwrites).symm.trans hgraph
    rw [transcript]
    cases hop : drop op.family with
    | true =>
      obtain ⟨hwrites, hwatch⟩ := hdrop _ hop
      rw [List.filter_cons_of_neg (by simp [hwatch]), List.filter_cons_of_neg (by simp [hop])]
      exact hkept hconfig (hunseen hwrites)
    | false =>
      have hconfig' : (e'.perform op).2.config = e.config := (config_perform e' op).trans hconfig
      have hstays : (op :: ops).filter (!drop ·.family) = op :: ops.filter (!drop ·.family) :=
        List.filter_cons_of_pos (by simp [hop])
      rw [hstays, transcript]
      rcases hstay _ hop with hreads | ⟨hwrites, hwatch⟩
      · obtain ⟨hanswer, hafter⟩ := perform_congr hconfig hgraph hreads
        rw [List.filter_cons, List.filter_cons, hanswer, hkept hconfig' hafter]
      · rw [List.filter_cons_of_neg (by simp [hwatch]), List.filter_cons_of_neg (by simp [hwatch])]
        refine hkept hconfig' ((hunseen hwrites).trans ?_)
        rw [← hconfig] at hwrites
        exact (agreesOff_perform e' op).mono hwrites

/-! ### The operations of an engine -/

/-- **Operations do not interfere**, in any sequence and under any valid configuration. The graph
changes in node properties under the two names for marks only. Slices and executions without hooks
give what they would have given at the start. If the two names differ, taint propagation gives the
same when all executions are dropped. If neither is the name of a part of a statement, data flow
analyses give what they would have given at the start. -/
theorem transcript_noninterference (e : Engine) (ops : List Operation) :
    AgreesOff [e.config.taint.key, e.config.execution.markerKey] e.graph (e.after ops).graph ∧
    (∀ r ∈ e.transcript ops, r.1.family = .slicing ∨ r.1.family = .execution →
      r.2 = (e.perform r.1).1) ∧
    (e.config.taint.key ≠ e.config.execution.markerKey →
      (e.transcript ops).filter (·.1.family = .taint) =
        (e.transcript (ops.filter (!·.family.executes))).filter (·.1.family = .taint)) ∧
    (e.config.taint.key ∉ DataFlow.statementKeys e.config.dataFlow →
      e.config.execution.markerKey ∉ DataFlow.statementKeys e.config.dataFlow →
      ∀ r ∈ e.transcript ops, r.1.family = .dataFlow → r.2 = (e.perform r.1).1) := by
  have hwrites : ∀ op ∈ ops,
      op.family.writes e.config ⊆ [e.config.taint.key, e.config.execution.markerKey] :=
    fun op _ => op.family.writes_subset e.config
  refine ⟨agreesOff_after e ops hwrites, fun r hr hfamily => ?_, fun hne => ?_,
    fun htaint hmarker r hr hfamily => ?_⟩
  · refine transcript_eq_initial e ops hwrites hr fun key _ => ?_
    rcases hfamily with hfamily | hfamily <;> rw [hfamily] <;> exact id
  · -- what executions write, data flow can read, but it writes nothing that taint could read
    refine filter_transcript_drop [e.config.execution.markerKey] Family.executes (· = .taint) rfl
      (AgreesOff.refl _ e.graph) (fun f hf => ?_) (fun f hf => ?_) ops
    · cases f with
      | execution | ownHooks => exact ⟨List.Subset.refl _, rfl⟩
      | taint | slicing | dataFlow | ownProblem => cases hf
    · cases f with
      | taint => exact Or.inl (List.forall_mem_singleton.mpr hne.symm)
      | slicing => exact Or.inl fun _ _ => id
      | dataFlow | ownProblem => exact Or.inr ⟨List.nil_subset _, rfl⟩
      | execution | ownHooks => cases hf
  · refine transcript_eq_initial e ops hwrites hr ?_
    rw [hfamily]
    exact List.forall_mem_cons.mpr ⟨htaint, List.forall_mem_singleton.mpr hmarker⟩

/-- On a chain with a tainted start, where both kinds of marks are written in between. -/
theorem transcript_noninterference_chain :
    let g := (Graph.addShape ∅ .chain 3 "n").setProperty ⟨0⟩ "tainted" "true"
    let e : Engine := { config := {}, graph := g, valid := rfl }
    let ops : List Operation := [.execute (some ⟨1⟩), .taint (some ⟨0⟩), .liveVariables,
      .slice (some ⟨2⟩) .backward, .execute (some ⟨0⟩), .taintAll]
    (e.after ops).graph.property ⟨2⟩ "tainted" = "true" ∧
      (e.after ops).graph.property ⟨2⟩ "symbolic_state" = "processed" ∧
      (∀ r ∈ e.transcript ops, r.1.family = .execution → r.2 = (e.perform r.1).1) ∧
      (e.transcript ops).filter (·.1.family = .taint) =
        (e.transcript (ops.filter (!·.family.executes))).filter (·.1.family = .taint) ∧
      (∀ r ∈ e.transcript ops, r.1.family = .dataFlow → r.2 = (e.perform r.1).1) := by
  intro g e ops
  obtain ⟨-, hsame, htaint, hdataFlow⟩ := transcript_noninterference e ops
  exact ⟨by decide +kernel, by decide +kernel, fun r hr hfamily => hsame r hr (Or.inr hfamily),
    htaint (by decide), hdataFlow (by decide) (by decide)⟩

end Engine

end ProgramGraph
