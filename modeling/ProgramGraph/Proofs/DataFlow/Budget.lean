import Mathlib.Data.ENat.Lattice
import ProgramGraph.Proofs.DataFlow.StepBound

/-!
# An analysis under a budget is a stage of the full one

`analyses_within`: under a budget each of the four analyses takes as many steps as the budget and
the full analysis both allow, is truncated exactly if the full one takes more, and finds facts that
err on one side. Definitions, live variables and constants are still on their way up, and available
expressions still on their way down; so a budget can hide chains from definitions to uses, and can
call definitions dead that are not.

That more steps only add to the facts that nodes produce is how an ascending problem ends. Here it
is also said of the facts that arrive (`Ascent.Trailing`): what is stored for a node lies below what
arrives now, since it arrived earlier. Hence a longer run has climbed higher on both sides of every
node (`Ascent.Trailing.rises`), on every graph.
-/

namespace ProgramGraph

/-- The same settings under another budget. -/
def DataFlowConfig.within (c : DataFlowConfig) (budget : Option UInt64) : DataFlowConfig :=
  { c with maxIterations := budget }

namespace DataFlow

universe u

variable {Fact : Type u} {P : Problem Fact} {g : Graph}

/-- How many steps a budget allows; none stands for any number. -/
def allowedSteps (budget : Option UInt64) : ℕ∞ :=
  budget.elim ⊤ fun b => (b.toNat : ℕ∞)

namespace Solution

/-- A solution that has as many of the steps of the full one as the limit allows, and is truncated
if these are not all. -/
structure IsStage (limit : ℕ∞) (S full : Solution Fact) : Prop where
  iterations_eq : (S.iterations : ℕ∞) = min limit full.iterations
  truncated_iff : S.truncated = true ↔ limit < full.iterations

/-- At every point the facts of the two solutions are related. -/
def Related (R : Fact → Fact → Prop) (S S' : Solution Fact) : Prop :=
  ∀ x, Option.Rel R (S.fact? x) (S'.fact? x)

/-- Where the first solution has a fact, the second has one that it is related to. -/
theorem Related.exists_fact? {R : Fact → Fact → Prop} {S S' : Solution Fact}
    (h : S.Related R S') {x : Point} {fact : Fact} (hx : S.fact? x = some fact) :
    ∃ fact', S'.fact? x = some fact' ∧ R fact fact' := by
  have hrel := h x
  rw [hx] at hrel
  cases hx' : S'.fact? x with
  | none =>
    rw [hx'] at hrel
    cases hrel
  | some fact' =>
    rw [hx'] at hrel
    cases hrel with
    | some hfacts => exact ⟨fact', rfl, hfacts⟩

end Solution

/-! ### Runs under a smaller limit -/

/-- A run that ends is cut by a limit to as many steps as both allow. -/
theorem Problem.iterate_stage [DecidableEq Fact] {s : Iteration Fact} {full : Nat}
    (ht : (P.iterate g full s).truncated = false) (limit : Nat) :
    (P.iterate g limit s).iterations =
        min (s.iterations + limit) (P.iterate g full s).iterations ∧
      ((P.iterate g limit s).truncated = true ↔
        s.iterations + limit < (P.iterate g full s).iterations) := by
  induction full generalizing s limit with
  | zero =>
    have hnil : s.queue = [] := by
      by_contra hne
      simp [iterate, List.isEmpty_iff, hne] at ht
    rw [iterate_of_nil hnil] at ht
    rw [iterate_of_nil hnil, iterate_of_nil hnil]
    simp [ht]
  | succ full ih =>
    cases hq : s.queue with
    | nil =>
      rw [iterate_of_nil hq] at ht
      rw [iterate_of_nil hq, iterate_of_nil hq]
      simp [ht]
    | cons n rest =>
      rw [iterate_succ_of_cons hq] at ht ⊢
      have hcount := iterations_le_iterate (P := P) (g := g) full (P.step g s n rest)
      rw [iterations_step] at hcount
      cases limit with
      | zero =>
        -- a step is due, so the limit is used up before the end
        simp only [iterate, hq, List.isEmpty_cons, Bool.false_eq_true, if_false, true_iff]
        omega
      | succ limit =>
        have hstage := ih ht limit
        rw [iterations_step, Nat.add_assoc, Nat.add_comm 1] at hstage
        rw [iterate_succ_of_cons hq]
        exact hstage

/-- A solution under a limit is a stage of the full one: it has taken as many steps as it may, and
it is truncated exactly if the full one takes more. -/
theorem Problem.solve_stage [DecidableEq Fact] {full : Nat}
    (ht : (P.solve g full).truncated = false) (limit : Nat) :
    (P.solve g limit).iterations = min limit (P.solve g full).iterations ∧
      ((P.solve g limit).truncated = true ↔ limit < (P.solve g full).iterations) := by
  have hstage := iterate_stage ht limit
  have hzero : (P.start g).iterations = 0 := rfl
  rw [hzero, Nat.zero_add] at hstage
  exact hstage

/-! ### Facts climb on both sides -/

namespace Ascent

variable (A : Ascent P g)

/-- Every fact of the second state lies above that of the first. -/
structure Rises (s s' : Iteration Fact) : Prop where
  arriving : ∀ n : NodeId, Option.Rel A.le s.arriving[n.index]? s'.arriving[n.index]?
  produced : ∀ n : NodeId, Option.Rel A.le s.produced[n.index]? s'.produced[n.index]?

/-- The facts climb, and what is stored as arriving at a node lies below what arrives now. -/
structure Trailing (s : Iteration Fact) : Prop extends A.Climbing s where
  arriving_size : s.arriving.size = g.nodeCount
  le_arrivingAt : ∀ n fact, s.arriving[n.index]? = some fact →
    A.le fact (P.arrivingAt g s.produced n)

/-- All facts start as the initial one, which lies below whatever can arrive. -/
theorem trailing_start : A.Trailing (P.start g) where
  toClimbing := A.climbing_start
  arriving_size := by simp [Problem.start]
  le_arrivingAt n fact hfact := by
    have hinitial : fact = P.initial g :=
      Problem.produces_start (P := P) (I := fun _ fact => fact = P.initial g)
        (fun _ => rfl) n fact hfact
    rw [hinitial]
    exact A.initial_le (A.attained_arrivingAt A.climbing_start.attained n)

variable {A} {s s' s'' : Iteration Fact}

protected theorem Rises.refl (s : Iteration Fact) : A.Rises s s :=
  ⟨fun _ => A.rel_refl _, fun _ => A.rel_refl _⟩

protected theorem Rises.trans (h : A.Rises s s') (h' : A.Rises s' s'') : A.Rises s s'' :=
  ⟨fun n => A.rel_trans (h.arriving n) (h'.arriving n),
    fun n => A.rel_trans (h.produced n) (h'.produced n)⟩

variable [DecidableEq Fact]

/-- A step raises the facts of its node and leaves the others alone. -/
theorem Trailing.rises_step (hs : A.Trailing s) (n : NodeId) (rest : List NodeId) :
    A.Rises s (P.step g s n rest) where
  produced := hs.rel_step n rest
  arriving m := by
    cases hn : g.node? n with
    | none =>
      rw [Problem.step_of_none hn]
      exact A.rel_refl _
    | some node =>
      rw [Problem.getElem?_arriving_step hn hs.arriving_size]
      split
      · rename_i heq
        subst heq
        have hlt : m.index < s.arriving.size := by
          rw [hs.arriving_size]
          exact Graph.contains_iff.mp (Graph.contains_of_node? hn)
        rw [Array.getElem?_eq_getElem hlt]
        exact Option.Rel.some (hs.le_arrivingAt m _ (Array.getElem?_eq_getElem hlt))
      · exact A.rel_refl _

/-- What a node produces rises, and with it what arrives at its targets; what arrives at the node
itself is stored anew. -/
theorem Trailing.step (hs : A.Trailing s) (n : NodeId) (rest : List NodeId) :
    A.Trailing (P.step g s n rest) where
  toClimbing := hs.toClimbing.step n rest
  arriving_size := Problem.size_arriving_step.trans hs.arriving_size
  le_arrivingAt m fact hfact := by
    have hrise := A.arrivingAt_le_arrivingAt (hs.rel_step n rest) m
    cases hn : g.node? n with
    | none =>
      rw [Problem.step_of_none hn] at hfact ⊢
      exact hs.le_arrivingAt m fact hfact
    | some node =>
      rw [Problem.getElem?_arriving_step hn hs.arriving_size] at hfact
      split at hfact
      · rename_i heq
        subst heq
        cases hfact
        exact hrise
      · exact A.le_trans (hs.le_arrivingAt m fact hfact) hrise

/-- So the facts rise over a whole run. -/
theorem Trailing.rises_iterate (hs : A.Trailing s) (limit : Nat) :
    A.Rises s (P.iterate g limit s) := by
  have hstep : ∀ t n rest, t.queue = n :: rest → A.Trailing t ∧ A.Rises s t →
      A.Trailing (P.step g t n rest) ∧ A.Rises s (P.step g t n rest) := by
    rintro t n rest - ⟨ht, hrises⟩
    exact ⟨ht.step n rest, hrises.trans (ht.rises_step n rest)⟩
  obtain ⟨t, ⟨-, hrises⟩, -, ⟨-, heq⟩ | heq⟩ :=
    Problem.iterate_induction hstep limit ⟨hs, Rises.refl s⟩
  · rw [heq]
    exact hrises
  · rw [heq]
    exact ⟨hrises.arriving, hrises.produced⟩

/-- **A longer run has climbed higher.** -/
theorem Trailing.rises (hs : A.Trailing s) {limit limit' : Nat} (hle : limit ≤ limit') :
    A.Rises (P.iterate g limit s) (P.iterate g limit' s) := by
  induction limit generalizing s limit' with
  | zero =>
    have hrises := hs.rises_iterate limit'
    rw [Problem.iterate]
    split
    · exact hrises
    · exact ⟨hrises.arriving, hrises.produced⟩
  | succ limit ih =>
    obtain ⟨more, rfl⟩ : ∃ more, limit' = more + 1 := ⟨limit' - 1, by omega⟩
    cases hq : s.queue with
    | nil =>
      rw [Problem.iterate_of_nil hq, Problem.iterate_of_nil hq]
      exact Rises.refl s
    | cons n rest =>
      rw [Problem.iterate_succ_of_cons hq, Problem.iterate_succ_of_cons hq]
      exact ih (hs.step n rest) (Nat.le_of_succ_le_succ hle)

/-! ### Solutions under a budget -/

variable (A) {b b' : Option UInt64}

/-- An ascending problem under a budget, with the allowance as the limit if there is none. -/
abbrev solveWithin (budget : Option UInt64) : Solution Fact :=
  P.solve g ((budget.map UInt64.toNat).getD (P.allowance g A.height))

/-- Without a budget the run of an ascending problem is not truncated. -/
theorem truncated_solveWithin : (A.solveWithin none).truncated = false :=
  A.truncated_solve le_rfl

/-- A run within a budget is a stage of the run without one. -/
theorem isStage_solveWithin (budget : Option UInt64) :
    (A.solveWithin budget).IsStage (allowedSteps budget) (A.solveWithin none) := by
  cases budget with
  | none =>
    refine ⟨(min_eq_right le_top).symm, ?_⟩
    rw [A.truncated_solveWithin]
    exact iff_of_false Bool.false_ne_true not_top_lt
  | some b =>
    obtain ⟨hcount, htruncated⟩ := Problem.solve_stage A.truncated_solveWithin b.toNat
    have hcast := congrArg (Nat.cast : Nat → ℕ∞) hcount
    rw [Nat.mono_cast.map_min] at hcast
    exact ⟨hcast, htruncated.trans Nat.cast_lt.symm⟩

/-- A run that has ended stays as it is, so no budget is the same as any large limit. -/
theorem exists_solveWithin_none_eq (k : Nat) :
    ∃ k', k ≤ k' ∧ A.solveWithin none = P.solve g k' := by
  obtain ⟨hcount, -⟩ := Problem.solve_stage A.truncated_solveWithin (P.allowance g A.height)
  have hallowance : (A.solveWithin none).iterations ≤ P.allowance g A.height :=
    min_eq_right_iff.mp hcount.symm
  refine ⟨max k (P.allowance g A.height), le_max_left _ _, ?_⟩
  exact ((A.endsWithin rfl).solve_eq _ (hallowance.trans (le_max_right _ _))).symm

/-- **A larger budget climbs higher.** -/
theorem related_solveWithin (hle : allowedSteps b ≤ allowedSteps b') :
    (A.solveWithin b).Related A.le (A.solveWithin b') := by
  obtain ⟨k, k', hk, hb, hb'⟩ : ∃ k k', k ≤ k' ∧ A.solveWithin b = P.solve g k ∧
      A.solveWithin b' = P.solve g k' := by
    cases b' with
    | none =>
      obtain ⟨k', hk, heq⟩ := A.exists_solveWithin_none_eq
        ((b.map UInt64.toNat).getD (P.allowance g A.height))
      exact ⟨_, k', hk, rfl, heq⟩
    | some m' =>
      cases b with
      | none => exact absurd hle (by simp [allowedSteps])
      | some m => exact ⟨m.toNat, m'.toNat, Nat.cast_le.mp hle, rfl, rfl⟩
  have hrises := A.trailing_start.rises hk
  intro x
  rw [hb, hb']
  rcases P.fact?_solve g x with harriving | hproduced
  · rw [harriving, harriving]
    exact hrises.arriving x.node
  · rw [hproduced, hproduced]
    exact hrises.produced x.node

/-- What a budget does to an analysis that solves an ascending problem. -/
theorem isStage_and_related {solution : Option UInt64 → Solution Fact}
    (hsolution : ∀ b, solution b = A.solveWithin b) (hle : allowedSteps b ≤ allowedSteps b') :
    (solution b).IsStage (allowedSteps b) (solution none) ∧
      (solution b).Related A.le (solution b') := by
  rw [hsolution, hsolution, hsolution]
  exact ⟨A.isStage_solveWithin b, A.related_solveWithin hle⟩

end Ascent

/-! ### The four analyses -/

section Analyses

variable (c : DataFlowConfig) (g : Graph) (b : Option UInt64)

/-- The four analyses under a budget are runs of their problems within it, since the budget plays no
part in the problem itself. -/
theorem reachingDefinitions_within : reachingDefinitions (c.within b) g =
    (ReachingDefinitions.ascent c g).solveWithin b := by
  have hheight : (ReachingDefinitions.ascent c g).height = ReachingDefinitions.height c g :=
    ReachingDefinitions.length_allMade
  rw [Ascent.solveWithin, hheight]
  rfl

theorem liveVariables_within : liveVariables (c.within b) g =
    (LiveVariables.ascent c g).solveWithin b := by
  rw [Ascent.solveWithin, LiveVariables.height_ascent]
  rfl

/-- The problem does not depend on the budget. -/
theorem problem_availableExpressions_within :
    AvailableExpressions.problem (c.within b) = AvailableExpressions.problem c := by
  have hdefs : defs (c.within b) = defs c := rfl
  have hgenerated : AvailableExpressions.generated (c.within b) =
      AvailableExpressions.generated c := rfl
  -- named by hand: to unfold both transfers down to the sets takes long
  have htransfer : AvailableExpressions.transfer (c.within b) =
      AvailableExpressions.transfer c := by
    funext node fact
    rw [AvailableExpressions.transfer, AvailableExpressions.transfer, hgenerated, hdefs]
  rw [AvailableExpressions.problem, htransfer]
  rfl

theorem availableExpressions_within : availableExpressions (c.within b) g =
    (AvailableExpressions.ascent c g).solveWithin b := by
  rw [availableExpressions, problem_availableExpressions_within]
  rfl

theorem constantPropagation_within : constantPropagation (c.within b) g =
    (ConstantPropagation.ascent c g).solveWithin b := rfl

variable {c g b} {b' : Option UInt64}

/-- More definitions reach, so there are more chains. -/
theorem defUseChains_subset (hreach : (reachingDefinitions (c.within b) g).Related
      (fun a a' => ∀ d ∈ a, d ∈ a') (reachingDefinitions (c.within b') g)) :
    defUseChains (c.within b) g ⊆ defUseChains (c.within b') g := by
  rintro ⟨d, u⟩ hchain
  obtain ⟨huse, before, hbefore, hd⟩ := mem_defUseChains.mp hchain
  obtain ⟨before', hbefore', hsub⟩ := hreach.exists_fact? (x := .before u) hbefore
  exact mem_defUseChains.mpr ⟨huse, before', hbefore', hsub d hd⟩

/-- More variables are live, so fewer definitions are dead. -/
theorem deadDefinitions_subset (hlive : (liveVariables (c.within b) g).Related
      (fun a a' => ∀ v ∈ a, v ∈ a') (liveVariables (c.within b') g)) :
    deadDefinitions (c.within b') g ⊆ deadDefinitions (c.within b) g := by
  intro d hdead
  obtain ⟨hmade, hnot⟩ := mem_deadDefinitions.mp hdead
  refine mem_deadDefinitions.mpr ⟨hmade, fun after hafter hv => ?_⟩
  obtain ⟨after', hafter', hsub⟩ := hlive.exists_fact? (x := .after d.node) hafter
  exact hnot after' hafter' (hsub _ hv)

end Analyses

/-- **An analysis under a budget is a stage of the full one.** On every graph, each of the four
analyses takes the steps that the budget and the full analysis both allow and is truncated exactly
if the full one takes more; and under a larger budget there are more definitions and live variables
at every point, fewer expressions, and higher values of the variables. So there are more chains from
definitions to uses, and fewer dead definitions. -/
theorem analyses_within (c : DataFlowConfig) (g : Graph) (b b' : Option UInt64)
    (hle : allowedSteps b ≤ allowedSteps b') :
    ((reachingDefinitions (c.within b) g).IsStage (allowedSteps b)
        (reachingDefinitions (c.within none) g) ∧
      (reachingDefinitions (c.within b) g).Related (fun a a' => ∀ d ∈ a, d ∈ a')
        (reachingDefinitions (c.within b') g)) ∧
    ((liveVariables (c.within b) g).IsStage (allowedSteps b) (liveVariables (c.within none) g) ∧
      (liveVariables (c.within b) g).Related (fun a a' => ∀ v ∈ a, v ∈ a')
        (liveVariables (c.within b') g)) ∧
    ((availableExpressions (c.within b) g).IsStage (allowedSteps b)
        (availableExpressions (c.within none) g) ∧
      (availableExpressions (c.within b) g).Related (fun a a' => ∀ e ∈ a', e ∈ a)
        (availableExpressions (c.within b') g)) ∧
    ((constantPropagation (c.within b) g).IsStage (allowedSteps b)
        (constantPropagation (c.within none) g) ∧
      (constantPropagation (c.within b) g).Related (fun a a' => ∀ v : String, a[v]? ≤ a'[v]?)
        (constantPropagation (c.within b') g)) ∧
    defUseChains (c.within b) g ⊆ defUseChains (c.within b') g ∧
    deadDefinitions (c.within b') g ⊆ deadDefinitions (c.within b) g := by
  have hreach := (ReachingDefinitions.ascent c g).isStage_and_related
    (reachingDefinitions_within c g) hle
  have hlive := (LiveVariables.ascent c g).isStage_and_related (liveVariables_within c g) hle
  have havailable := (AvailableExpressions.ascent c g).isStage_and_related
    (availableExpressions_within c g) hle
  have hconstants := (ConstantPropagation.ascent c g).isStage_and_related
    (constantPropagation_within c g) hle
  exact ⟨hreach, hlive, havailable, hconstants, defUseChains_subset hreach.2,
    deadDefinitions_subset hlive.2⟩

/-- A chain of three nodes whose last one uses what the first defines: two steps do not find the
chain, four do, and only the fifth step finds the definition live. -/
theorem analyses_within_chain :
    let c : DataFlowConfig := {}
    let g := [(0, "defs", "x"), (2, "uses", "x")].foldl
      (fun g (i, key, text) => g.setProperty ⟨i⟩ key text) (Graph.addShape ∅ .chain 3 "n")
    allowedSteps (some 2) ≤ allowedSteps (some 4) ∧
      (liveVariables (c.within (some 2)) g).IsStage (allowedSteps (some 2))
        (liveVariables (c.within none) g) ∧
      (liveVariables (c.within none) g).iterations = 5 ∧
      defUseChains (c.within (some 2)) g ⊆ defUseChains (c.within (some 4)) g ∧
      defUseChains (c.within (some 2)) g = [] ∧
      defUseChains (c.within (some 4)) g = [(⟨"x", ⟨0⟩⟩, ⟨2⟩)] ∧
      deadDefinitions (c.within (some 4)) g ⊆ deadDefinitions (c.within (some 2)) g ∧
      deadDefinitions (c.within (some 4)) g = [⟨"x", ⟨0⟩⟩] ∧
      deadDefinitions (c.within none) g = [] := by
  intro c g
  have hle : allowedSteps (some 2) ≤ allowedSteps (some 4) := by decide
  obtain ⟨-, hlive, -, -, hchains, hdead⟩ := analyses_within c g (some 2) (some 4) hle
  exact ⟨hle, hlive.1, by decide +kernel, hchains, by decide +kernel, by decide +kernel, hdead,
    by decide +kernel, by decide +kernel⟩

end DataFlow

end ProgramGraph
