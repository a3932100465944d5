import ProgramGraph.Proofs.DataFlow.Ascent
import ProgramGraph.Proofs.FiniteSet

/-!
# Problems whose facts are sets joined by union

A problem *unites* when its facts are finite sets, nothing holds at first or at the boundary, and
facts that meet are united. If moreover the transfer is monotone and draws from a list of elements,
the problem ascends by inclusion, with the length of the list as height (`Unites.ascent`).
-/

namespace ProgramGraph.DataFlow

variable {α : Type} [Ord α] [Std.TransOrd α]

/-! ### Uniting problems -/

/-- Facts are united, and there are none to begin with. -/
structure Problem.Unites (P : Problem (Std.ExtTreeSet α)) (g : Graph) : Prop where
  meet_eq : ∀ a b, P.meet a b = a ∪ b
  boundary_eq : P.boundary g = ∅
  initial_eq : P.initial g = ∅

namespace Problem.Unites

variable {P : Problem (Std.ExtTreeSet α)} {g : Graph} (hP : P.Unites g)

include hP

/-- A uniting problem with monotone transfer that draws from a list ascends by inclusion. -/
def ascent [Std.LawfulEqOrd α] (elements : List α)
    (hmono : ∀ {a b : Std.ExtTreeSet α} (n node), (∀ x ∈ a, x ∈ b) →
      ∀ x ∈ P.transfer n node a, x ∈ P.transfer n node b)
    (hdraw : ∀ {a : Std.ExtTreeSet α} {n node}, g.node? n = some node →
      (∀ x ∈ a, x ∈ elements) → ∀ x ∈ P.transfer n node a, x ∈ elements) : Ascent P g where
  le a b := ∀ x ∈ a, x ∈ b
  Attained a := ∀ x ∈ a, x ∈ elements
  rank a := a.size
  height := elements.length
  le_refl _ _ hx := hx
  le_trans hab hbc x hx := hbc x (hab x hx)
  meet_le_meet {a a' b b'} ha hb x hx := by
    rw [hP.meet_eq, Std.ExtTreeSet.mem_union_iff] at hx ⊢
    exact hx.imp (ha x) (hb x)
  transfer_le_transfer := hmono
  attained_initial x hx := by
    rw [hP.initial_eq] at hx
    exact absurd hx Std.ExtTreeSet.not_mem_empty
  attained_boundary x hx := by
    rw [hP.boundary_eq] at hx
    exact absurd hx Std.ExtTreeSet.not_mem_empty
  attained_meet {a b} ha hb x hx := by
    rw [hP.meet_eq, Std.ExtTreeSet.mem_union_iff] at hx
    exact hx.elim (ha x) (hb x)
  attained_transfer := hdraw
  initial_le {a} _ x hx := by
    rw [hP.initial_eq] at hx
    exact absurd hx Std.ExtTreeSet.not_mem_empty
  rank_lt_rank _ _ hle hne := FiniteSet.size_lt_size hle hne
  rank_le_height ha := FiniteSet.size_le_length ha

end Problem.Unites

end ProgramGraph.DataFlow
