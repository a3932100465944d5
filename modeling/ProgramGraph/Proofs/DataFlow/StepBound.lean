import Mathlib.Data.Set.Card
import ProgramGraph.Proofs.DataFlow.AvailableExpressions
import ProgramGraph.Proofs.DataFlow.ConstantPropagation
import ProgramGraph.Proofs.DataFlow.DefUse

/-!
# How many steps the analyses take

`Problem.EndsWithin` says what a height does for an iteration: the queue runs empty, no node's fact
changes more often than the height, and the number of steps is bounded by the number of nodes and
the height times the number of targets of all nodes. Every ascending problem ends within its height
(`Ascent.endsWithin`), on every graph: the lists on the two sides of the edges need not agree.

`analyses_endWithin` gives the heights of the four analyses as numbers of definitions, variables and
expressions in the graph, counted apart from the lists that the iteration is given.
-/

namespace ProgramGraph.DataFlow

universe u

variable {Fact : Type u} [DecidableEq Fact] {P : Problem Fact} {g : Graph}

/-! ### Runs under different limits -/

namespace Problem

variable {s : Iteration Fact}

/-- Steps are only counted up. -/
theorem iterations_le_iterate (limit : Nat) (s : Iteration Fact) :
    s.iterations ≤ (P.iterate g limit s).iterations := by
  have hstep : ∀ (s' : Iteration Fact) n rest, s'.queue = n :: rest →
      s.iterations ≤ s'.iterations → s.iterations ≤ (P.step g s' n rest).iterations := by
    intro s' n rest _ hle
    rw [iterations_step]
    omega
  obtain ⟨s', hle, -, ⟨-, heq⟩ | heq⟩ := iterate_induction hstep limit le_rfl
  · rw [heq]
    exact hle
  · rw [heq]
    exact hle

/-- Two limits that both leave room for the steps that are due make no difference. -/
theorem iterate_eq_of_iterations_le {limit limit' : Nat}
    (ht : (P.iterate g limit s).truncated = false)
    (hle : (P.iterate g limit s).iterations ≤ s.iterations + limit') :
    P.iterate g limit' s = P.iterate g limit s := by
  induction limit generalizing s limit' with
  | zero =>
    have hnil : s.queue = [] := by
      by_contra hne
      simp [iterate, List.isEmpty_iff, hne] at ht
    rw [iterate_of_nil hnil, iterate_of_nil hnil]
  | succ limit ih =>
    cases hq : s.queue with
    | nil => rw [iterate_of_nil hq, iterate_of_nil hq]
    | cons n rest =>
      rw [iterate_succ_of_cons hq] at ht hle ⊢
      -- a step is due, so the other limit cannot be used up
      have hcount := iterations_le_iterate (P := P) (g := g) limit (P.step g s n rest)
      rw [iterations_step] at hcount
      obtain ⟨room, rfl⟩ : ∃ room, limit' = room + 1 := ⟨limit' - 1, by omega⟩
      rw [iterate_succ_of_cons hq]
      refine ih ht ?_
      rw [iterations_step]
      omega

/-- One step more: nothing happens at the end of the iteration, and before it the next node of the
queue is taken. -/
theorem produced_iterate_succ (k : Nat) (s : Iteration Fact) :
    (P.iterate g (k + 1) s).produced = (P.iterate g k s).produced ∨
      ∃ n rest, (P.iterate g (k + 1) s).produced =
        (P.step g (P.iterate g k s) n rest).produced := by
  induction k generalizing s with
  | zero =>
    cases hq : s.queue with
    | nil =>
      left
      rw [iterate_of_nil hq, iterate_of_nil hq]
    | cons n rest =>
      refine Or.inr ⟨n, rest, ?_⟩
      rw [iterate_succ_of_cons hq, produced_iterate_zero]
      cases hn : g.node? n with
      | none => rw [step_of_none hn, step_of_none hn, produced_iterate_zero]
      | some node => rw [produced_step hn, produced_step hn, produced_iterate_zero]
  | succ k ih =>
    cases hq : s.queue with
    | nil =>
      left
      rw [iterate_of_nil hq, iterate_of_nil hq]
    | cons n rest =>
      rw [iterate_succ_of_cons hq, iterate_succ_of_cons hq]
      exact ih (P.step g s n rest)

variable (P g) in
/-- The fact that a node produces after the first `k` steps, or at the end if that comes first. -/
def producedAfter (k : Nat) (n : NodeId) : Option Fact :=
  (P.iterate g k (P.start g)).produced[n.index]?

variable (P g) in
/-- How often the fact that a node produces changes in the first `k` steps. -/
def changes (k : Nat) (n : NodeId) : Nat :=
  (List.range k).countP fun i => P.producedAfter g i n ≠ P.producedAfter g (i + 1) n

/-- Changes are counted step by step. -/
theorem changes_succ (k : Nat) (n : NodeId) : P.changes g (k + 1) n =
    P.changes g k n + if P.producedAfter g k n ≠ P.producedAfter g (k + 1) n then 1 else 0 := by
  rw [changes, List.range_succ, List.countP_append, changes]
  simp [List.countP_cons]

variable (P g) in
/-- The iteration comes to the given solution, and is bounded by a height. -/
structure EndsWithin (S : Solution Fact) (height : Nat) : Prop where
  /-- The queue runs empty. -/
  truncated_eq : S.truncated = false
  /-- The solution needs no limit: it is the same for every limit that its steps keep to. -/
  solve_eq : ∀ limit, S.iterations ≤ limit → P.solve g limit = S
  changes_le : ∀ k n, P.changes g k n ≤ height
  iterations_le :
    S.iterations ≤ g.nodeCount + height * (g.nodeIds.map fun n => (P.targets g n).length).sum

end Problem

/-! ### Ascending problems -/

namespace Ascent

variable {A : Ascent P g} {s : Iteration Fact}

variable (A) in
/-- The facts climb over a whole run. -/
theorem climbing_iterate (k : Nat) : A.Climbing (P.iterate g k (P.start g)) := by
  obtain ⟨s, hs, -, ⟨-, heq⟩ | heq⟩ := Problem.iterate_induction
    (fun s n rest _ hs => Climbing.step (s := s) hs n rest) k A.climbing_start
  · rw [heq]
    exact hs
  · rw [heq]
    exact ⟨hs.produced_size, hs.attained, hs.le_producedAt⟩

/-- Where a step changes the fact of a node, it leaves less room there. -/
theorem Climbing.room_lt_of_ne (hs : A.Climbing s) {n m : NodeId} {rest : List NodeId}
    (hne : s.produced[m.index]? ≠ (P.step g s n rest).produced[m.index]?) :
    A.room (P.step g s n rest).produced m < A.room s.produced m := by
  cases hn : g.node? n with
  | none =>
    rw [Problem.step_of_none hn] at hne
    exact absurd rfl hne
  | some node =>
    rw [Problem.getElem?_produced_step hn hs.produced_size] at hne
    by_cases hmn : m = n
    · subst hmn
      rw [if_pos rfl] at hne
      exact hs.room_step_lt rest hn hne
    · rw [if_neg hmn] at hne
      exact absurd rfl hne

variable (A) in
/-- **A fact changes at most as often as it can climb**: every change uses up room. -/
theorem changes_add_room_le (k : Nat) (n : NodeId) :
    P.changes g k n + A.room (P.iterate g k (P.start g)).produced n ≤ A.height := by
  induction k with
  | zero =>
    have hnone : P.changes g 0 n = 0 := rfl
    rw [hnone, Nat.zero_add]
    exact A.room_le_height _ n
  | succ k ih =>
    have hs := A.climbing_iterate k
    rw [Problem.changes_succ]
    rcases Problem.produced_iterate_succ (P := P) (g := g) k (P.start g) with heq | ⟨m, rest, heq⟩
    · have hsame : P.producedAfter g k n = P.producedAfter g (k + 1) n := by
        rw [Problem.producedAfter, Problem.producedAfter, heq]
      rw [if_neg (not_not.mpr hsame), heq]
      exact ih
    · rw [Problem.producedAfter, Problem.producedAfter, heq]
      split
      · rename_i hne
        have hfall := hs.room_lt_of_ne hne
        omega
      · have hle := hs.room_step_le m rest n
        omega

/-- An iteration takes no more steps than its potential. -/
theorem Climbing.iterations_iterate_le (hs : A.Climbing s) (limit : Nat) :
    (P.iterate g limit s).iterations ≤ s.iterations + A.potential s := by
  induction limit generalizing s with
  | zero =>
    rw [Problem.iterations_iterate_zero]
    omega
  | succ limit ih =>
    cases hq : s.queue with
    | nil =>
      rw [Problem.iterate_of_nil hq]
      omega
    | cons n rest =>
      have hfall := hs.potential_step_lt hq
      have hrest := ih (hs.step n rest)
      rw [Problem.iterations_step] at hrest
      rw [Problem.iterate_succ_of_cons hq]
      omega

variable (A) in
/-- **An ascending problem ends within its height**, if the allowance is the limit. -/
theorem endsWithin {height : Nat} (hheight : A.height = height) :
    P.EndsWithin g (P.solve g (P.allowance g height)) height := by
  subst hheight
  have ht : (P.solve g (P.allowance g A.height)).truncated = false := A.truncated_solve le_rfl
  refine ⟨ht, fun limit hlimit => ?_, fun k n => ?_, ?_⟩
  · have hcount : (P.iterate g (P.allowance g A.height) (P.start g)).iterations ≤ 0 + limit := by
      rw [Nat.zero_add]
      exact hlimit
    rw [Problem.solve, Problem.solve, Problem.iterate_eq_of_iterations_le ht hcount]
  · have hroom := A.changes_add_room_le k n
    omega
  · have hstart := A.potential_start_le
    have hcount := A.climbing_start.iterations_iterate_le (P.allowance g A.height)
    rw [Problem.allowance, List.length_flatMap] at hstart
    calc (P.solve g (P.allowance g A.height)).iterations
        ≤ 0 + A.potential (P.start g) := hcount
      _ ≤ _ := by omega

end Ascent

/-! ### The heights of the four analyses -/

/-- A set that a list without repetitions enumerates. -/
private theorem ncard_eq_length {α : Type} {S : Set α} {l : List α} (hl : l.Nodup)
    (hmem : ∀ a, a ∈ S ↔ a ∈ l) : S.ncard = l.length := by
  classical
  have hcoe : S = (l.toFinset : Set α) := by
    ext a
    simp [hmem]
  rw [hcoe, Set.ncard_coe_finset, List.toFinset_card_of_nodup hl]

/-- A set that a finite set enumerates. -/
private theorem ncard_eq_size {α : Type} [Ord α] [Std.TransOrd α] [Std.LawfulEqOrd α] {S : Set α}
    {t : Std.ExtTreeSet α} (hmem : ∀ a, a ∈ S ↔ a ∈ t) : S.ncard = t.size := by
  rw [← Std.ExtTreeSet.length_toList]
  refine ncard_eq_length (FiniteSet.nodup_toList t) fun a => ?_
  rw [hmem, Std.ExtTreeSet.mem_toList]

namespace ReachingDefinitions

variable {c : DataFlowConfig} {g : Graph} {d : Definition}

/-- The list of all definitions holds those that some node makes. -/
theorem mem_allMade_iff : d ∈ allMade c g ↔ Defines c g d.node d.variableName := by
  constructor
  · intro hd
    obtain ⟨⟨node, i⟩, hentry, hmade⟩ := List.mem_flatMap.mp hd
    obtain ⟨hsite, hdefs⟩ := mem_made.mp hmade
    rw [List.mem_zipIdx_iff_getElem?, Array.getElem?_toList] at hentry
    rw [hsite]
    exact ⟨node, hentry, hdefs⟩
  · rintro ⟨node, hnode, hdefs⟩
    exact mem_allMade hnode (mem_made.mpr ⟨rfl, hdefs⟩)

/-- No definition is listed twice: each tells the node that makes it. -/
theorem nodup_allMade : (allMade c g).Nodup := by
  have hsites : (g.nodes.toList.zipIdx.map Prod.snd).Nodup := by
    rw [List.zipIdx_map_snd]
    exact List.nodup_range'
  refine List.nodup_flatMap.mpr ⟨fun entry _ => ?_, ?_⟩
  · exact (FiniteSet.nodup_toList _).map fun v w hvw => congrArg Definition.variableName hvw
  · refine (List.pairwise_map.mp hsites).imp fun {entry entry'} hne => ?_
    intro d hd hd'
    have hsite := (mem_made.mp hd).1.symm.trans (mem_made.mp hd').1
    exact hne (congrArg NodeId.index hsite)

/-- The height of reaching definitions is the number of definitions. -/
theorem ncard_definitions : {d : Definition | Defines c g d.node d.variableName}.ncard =
    height c g :=
  (ncard_eq_length nodup_allMade fun _ => mem_allMade_iff.symm).trans length_allMade

/-- Each definition is added once at most, so that the analysis ends within its height. -/
theorem endsWithin_reachingDefinitions (g : Graph) (hmax : c.maxIterations = none) :
    (problem c).EndsWithin g (reachingDefinitions c g) (height c g) := by
  rw [reachingDefinitions, hmax]
  exact (ascent c g).endsWithin length_allMade

end ReachingDefinitions

/-- What the nodes of a graph contribute, united. -/
private theorem mem_foldl_nodes {g : Graph} {f : Node → NameSet} {v : String} :
    v ∈ g.nodes.toList.foldl (fun names node => names ∪ f node) ∅ ↔
      ∃ n node, g.node? n = some node ∧ v ∈ f node := by
  rw [FiniteSet.mem_foldl_union]
  constructor
  · rintro ⟨node, hnode, hv⟩
    obtain ⟨n, hn⟩ := Graph.mem_nodes_iff.mp hnode
    exact ⟨n, node, hn, hv⟩
  · rintro ⟨n, node, hn, hv⟩
    exact ⟨node, Graph.mem_nodes_iff.mpr ⟨n, hn⟩, hv⟩

namespace LiveVariables

variable {c : DataFlowConfig} {g : Graph}

/-- The height of live variables is the number of variables that are used. -/
theorem ncard_usedVariables : {v : String | ∃ n, Uses c g n v}.ncard = height c g :=
  ncard_eq_size fun _ => mem_foldl_nodes.symm

/-- Each variable becomes live once at most. -/
theorem endsWithin_liveVariables (g : Graph) (hmax : c.maxIterations = none) :
    (problem c).EndsWithin g (liveVariables c g) (height c g) := by
  rw [liveVariables, hmax]
  exact (ascent c g).endsWithin height_ascent

end LiveVariables

namespace AvailableExpressions

variable {c : DataFlowConfig} {g : Graph}

/-- The height of available expressions is the number of expressions that are computed. -/
theorem ncard_expressions : {e : Expression | ∃ n, Computes c g n e}.ncard = height c g :=
  ncard_eq_size fun _ => mem_expressions.symm

/-- Each expression is lost once at most. -/
theorem endsWithin_availableExpressions (g : Graph) (hmax : c.maxIterations = none) :
    (problem c).EndsWithin g (availableExpressions c g) (height c g) := by
  rw [availableExpressions, hmax]
  exact (ascent c g).endsWithin rfl

end AvailableExpressions

namespace ConstantPropagation

variable {c : DataFlowConfig} {g : Graph}

/-- The height of constant propagation is twice the number of variables that are defined. -/
theorem two_mul_ncard_definedVariables :
    2 * {v : String | ∃ n, Defines c g n v}.ncard = height c g :=
  congrArg (2 * ·) (ncard_eq_size fun _ => mem_foldl_nodes.symm)

/-- The value of each variable rises twice at most. -/
theorem endsWithin_constantPropagation (g : Graph) (hmax : c.maxIterations = none) :
    (problem c).EndsWithin g (constantPropagation c g) (height c g) := by
  rw [constantPropagation, hmax]
  exact (ascent c g).endsWithin rfl

end ConstantPropagation

/-- **The four analyses end within their heights**, on every graph and without a budget. A fact
changes at most as often as there are definitions in the graph for reaching definitions, used
variables for live variables, expressions for available expressions, and twice the defined variables
for constants. -/
theorem analyses_endWithin (c : DataFlowConfig) (g : Graph) (hmax : c.maxIterations = none) :
    (ReachingDefinitions.problem c).EndsWithin g (reachingDefinitions c g)
        {d : Definition | Defines c g d.node d.variableName}.ncard ∧
      (LiveVariables.problem c).EndsWithin g (liveVariables c g)
        {v : String | ∃ n, Uses c g n v}.ncard ∧
      (AvailableExpressions.problem c).EndsWithin g (availableExpressions c g)
        {e : Expression | ∃ n, Computes c g n e}.ncard ∧
      (ConstantPropagation.problem c).EndsWithin g (constantPropagation c g)
        (2 * {v : String | ∃ n, Defines c g n v}.ncard) := by
  rw [ReachingDefinitions.ncard_definitions, LiveVariables.ncard_usedVariables,
    AvailableExpressions.ncard_expressions, ConstantPropagation.two_mul_ncard_definedVariables]
  exact ⟨ReachingDefinitions.endsWithin_reachingDefinitions g hmax,
    LiveVariables.endsWithin_liveVariables g hmax,
    AvailableExpressions.endsWithin_availableExpressions g hmax,
    ConstantPropagation.endsWithin_constantPropagation g hmax⟩

/-- Two nodes that lead to each other, and a self loop that is only listed as leaving: two
definitions, one used variable, two expressions, one defined variable, and the bounds on the number
of steps that follow. -/
theorem analyses_endWithin_cycle :
    let c : DataFlowConfig := {}
    let g₀ := [(0, "defs", "i"), (0, "expr", "i + 1"), (0, "uses", "i"), (1, "defs", "i"),
        (1, "expr", "2 * i"), (1, "uses", "i")].foldl
      (fun g (i, key, text) => g.setProperty ⟨i⟩ key text) (Graph.addShape ∅ .cycle 2 "n")
    let g := (g₀.addEdge "loop" (some ⟨0⟩) (some ⟨0⟩)).2.addOutgoing ⟨0⟩ ⟨2⟩
    c.maxIterations = none ∧ ¬ g.Consistent .backward ∧
      (reachingDefinitions c g).iterations ≤ 2 + 2 * 3 ∧
      (liveVariables c g).iterations ≤ 2 + 1 * 2 ∧
      (availableExpressions c g).iterations ≤ 2 + 2 * 3 ∧
      (constantPropagation c g).iterations ≤ 2 + 2 * 3 := by
  intro c g₀ g
  obtain ⟨hreaching, hlive, havailable, hconstants⟩ := analyses_endWithin c g rfl
  rw [ReachingDefinitions.ncard_definitions] at hreaching
  rw [LiveVariables.ncard_usedVariables] at hlive
  rw [AvailableExpressions.ncard_expressions] at havailable
  rw [ConstantPropagation.two_mul_ncard_definedVariables] at hconstants
  refine ⟨rfl, by decide, hreaching.iterations_le.trans ?_, hlive.iterations_le.trans ?_,
    havailable.iterations_le.trans ?_, hconstants.iterations_le.trans ?_⟩
  · decide +kernel
  · decide +kernel
  · decide +kernel
  · decide +kernel

end ProgramGraph.DataFlow
