import ProgramGraph.Config.Basic

/-!
# What a valid configuration promises

A configuration is valid exactly if its four stages are, each on its own: no setting of one stage is
held against a setting of another. A budget of a valid stage is at least one.
-/

namespace ProgramGraph

/-- A check that follows another passes if both do. -/
theorem check_then_eq_ok_iff {first second : Except ConfigError Unit} :
    (first >>= fun _ => second) = .ok () ↔ first = .ok () ∧ second = .ok () := by
  cases first with
  | error cause => simp [bind, Except.bind]
  | ok _ => simp [bind, Except.bind]

/-- A budget passes if it is absent or from one to the maximum. -/
theorem requireBudget_eq_ok_iff {field hint : String} {budget : Option UInt64} {max : Nat} :
    requireBudget field budget max hint = .ok () ↔
      ∀ n ∈ budget, 1 ≤ n.toNat ∧ n.toNat ≤ max := by
  cases budget with
  | none => simp [requireBudget]
  | some n =>
    simp only [requireBudget, Option.mem_some_iff, forall_eq']
    split <;> simp_all

/-- A configuration passes if each of its stages does. -/
theorem Config.validate_eq_ok_iff {c : Config} :
    c.validate = .ok () ↔ c.taint.validate = .ok () ∧ c.slicing.validate = .ok () ∧
      c.execution.validate = .ok () ∧ c.dataFlow.validate = .ok () := by
  simp only [validate, check_then_eq_ok_iff]

/-- An execution may process at least one pair. -/
theorem ExecutionConfig.one_le_maxStates {c : ExecutionConfig} (hc : c.validate = .ok ()) :
    ∀ n ∈ c.maxStates, 1 ≤ n.toNat := by
  simp only [validate, check_then_eq_ok_iff, requireBudget_eq_ok_iff] at hc
  obtain ⟨-, -, -, hstates⟩ := hc
  exact fun n hn => (hstates n hn).1

end ProgramGraph
