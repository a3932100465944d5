import ProgramGraph.DataFlow.AvailableExpressions
import ProgramGraph.Graph.Shape
import ProgramGraph.Proofs.DataFlow.FactSet
import ProgramGraph.Proofs.DataFlow.Spread
import ProgramGraph.Proofs.DataFlow.Statement

/-!
# Expressions are available unless a walk loses them

`mem_availableExpressions_iff_walk`: an expression of the graph is available before a node exactly
if no walk back from the node loses it, that is, comes past nodes that do not generate the
expression to one that kills it or to one into which nothing flows.

Here facts are intersected, and the iteration starts from all expressions of the graph and goes
down. What spreads along the flow is therefore the *absence* of an expression
(`AvailableExpressions.spread`): a node raises it that kills the expression, and a node passes it on
that does not generate the expression. On a cycle that nothing enters no absence ever starts, so
there all expressions are available that no node of the cycle kills.
-/

namespace ProgramGraph.DataFlow

namespace AvailableExpressions

variable {c : DataFlowConfig} {g : Graph} {n : NodeId} {node : Node} {e : Expression}

/-! ### Meet and transfer -/

/-- The expressions of a graph are those that some node computes. -/
theorem mem_expressions : e ∈ expressions c g ↔ ∃ m, Computes c g m e := by
  rw [expressions, Std.ExtTreeSet.mem_ofList, List.contains_iff_mem, List.mem_filterMap]
  constructor
  · rintro ⟨node, hnode, he⟩
    obtain ⟨m, hm⟩ := Graph.mem_nodes_iff.mp hnode
    exact ⟨m, node, hm, he⟩
  · rintro ⟨m, node, hm, he⟩
    exact ⟨node, Graph.mem_nodes_iff.mpr ⟨m, hm⟩, he⟩

/-- Where paths meet, an expression is available if it is on all of them. -/
theorem mem_meet {a b : ExpressionSet} : e ∈ (problem c).meet a b ↔ e ∈ a ∧ e ∈ b := by
  rw [← Std.ExtTreeSet.contains_iff_mem (t := b)]
  exact FiniteSet.mem_filter_iff

-- unfolding by `rfl` would evaluate the match on what the node generates
theorem transfer_problem (fact : ExpressionSet) :
    (problem c).transfer n node fact = transfer c node fact := by
  dsimp only [problem]

/-- A node makes its own expression available, and keeps those none of whose operands it defines. -/
theorem mem_transfer {fact : ExpressionSet} : e ∈ (problem c).transfer n node fact ↔
    generated c node = some e ∨ e.readsAny (defs c node) = false ∧ e ∈ fact := by
  have hkept : e ∈ fact.filter (fun e => !e.readsAny (defs c node)) ↔
      e.readsAny (defs c node) = false ∧ e ∈ fact := by
    rw [FiniteSet.mem_filter_iff, Bool.not_eq_true', and_comm]
  rw [transfer_problem, transfer]
  split
  · rename_i hnone
    rw [hkept, hnone]
    simp
  · rename_i own hown
    rw [Std.ExtTreeSet.mem_insert, hkept, hown, Std.LawfulEqOrd.compare_eq_iff_eq,
      Option.some.injEq]

/-- The expression that a node generates, said about the node of a graph. -/
theorem generated_eq_some_iff (hn : g.node? n = some node) :
    generated c node = some e ↔ Generates c g n e := by
  rw [generated, Option.filter_eq_some_iff, Generates, computes_iff hn, kills_iff hn]
  simp

/-- An expression is absent after a node that kills it, or if it was absent before and the node does
not generate it; no node does both. -/
theorem notMem_transfer {fact : ExpressionSet} (hn : g.node? n = some node) :
    e ∉ (problem c).transfer n node fact ↔ Kills c g n e ∨ ¬ Generates c g n e ∧ e ∉ fact := by
  rw [mem_transfer, generated_eq_some_iff hn, ← Bool.not_eq_true, ← kills_iff hn, not_or, not_and]
  constructor
  · rintro ⟨hgenerates, habsent⟩
    by_cases hkills : Kills c g n e
    · exact Or.inl hkills
    · exact Or.inr ⟨hgenerates, habsent hkills⟩
  · rintro (hkills | ⟨hgenerates, habsent⟩)
    · exact ⟨fun h => h.2 hkills, fun h => absurd hkills h⟩
    · exact ⟨hgenerates, fun _ => habsent⟩

/-! ### The iteration ends -/

/-- The facts of the problem descend by inclusion, from all expressions of the graph on. -/
def ascent (c : DataFlowConfig) (g : Graph) : Ascent (problem c) g where
  le a b := ∀ e ∈ b, e ∈ a
  Attained a := ∀ e ∈ a, e ∈ expressions c g
  rank a := height c g - a.size
  height := height c g
  le_refl _ _ he := he
  le_trans hab hbc e he := hab e (hbc e he)
  meet_le_meet ha hb e he := by
    obtain ⟨hea, heb⟩ := mem_meet.mp he
    exact mem_meet.mpr ⟨ha e hea, hb e heb⟩
  transfer_le_transfer n node hle e he := by
    rcases mem_transfer.mp he with hgenerated | ⟨hreads, he⟩
    · exact mem_transfer.mpr (Or.inl hgenerated)
    · exact mem_transfer.mpr (Or.inr ⟨hreads, hle e he⟩)
  attained_initial _ he := he
  attained_boundary e he := absurd he Std.ExtTreeSet.not_mem_empty
  attained_meet ha _ e he := ha e (mem_meet.mp he).1
  attained_transfer {a n node} hn ha e he := by
    rcases mem_transfer.mp he with hgenerated | ⟨-, he⟩
    · exact mem_expressions.mpr ⟨n, ((generated_eq_some_iff hn).mp hgenerated).1⟩
    · exact ha e he
  initial_le ha := ha
  rank_lt_rank {a b} ha _ hle hne := by
    have hlt : b.size < a.size := FiniteSet.size_lt_size hle (Ne.symm hne)
    have hbound : a.size ≤ height c g := FiniteSet.size_le_size ha
    omega
  rank_le_height _ := Nat.sub_le _ _

/-- Without a budget the iteration is never truncated. -/
theorem truncated_availableExpressions (g : Graph) (hmax : c.maxIterations = none) :
    (availableExpressions c g).truncated = false := by
  rw [availableExpressions, hmax]
  exact (ascent c g).truncated_solve le_rfl

/-! ### Walks -/

/-- A walk back from a node loses the expression: no node after the first one generates it, and the
last one kills it, unless it is the first, or has nothing flowing in. -/
def LosingWalk (c : DataFlowConfig) (g : Graph) (e : Expression) (n : NodeId) (qs : List NodeId) :
    Prop :=
  (n :: qs).IsChain (fun q p => p ∈ g.predecessors q) ∧ (∀ q ∈ qs, ¬ Generates c g q e) ∧
    (g.predecessors (qs.getLastD n) = [] ∨ qs ≠ [] ∧ Kills c g (qs.getLastD n) e)

/-- The absence of the expressions of a graph spreads: a node raises it for those it kills, and
passes it on for those it does not generate. -/
def spread (c : DataFlowConfig) (g : Graph) :
    Spread (problem c) g { e // e ∈ expressions c g } where
  Holds e fact := e.val ∉ fact
  Raises e n := Kills c g n e
  Passes e' e n := e' = e ∧ ¬ Generates c g n e
  holds_meet := by
    intro e a b
    rw [mem_meet, not_and_or]
  not_holds_initial e := not_not.mpr e.property
  holds_transfer {e fact n node} hn := by
    simp only [and_assoc, exists_eq_left]
    exact notMem_transfer hn

/-- A walk that loses an expression, read from its other end. -/
theorem exists_losingWalk_iff : (∃ qs, LosingWalk c g e n qs) ↔ g.predecessors n = [] ∨
    ∃ m, (Kills c g m e ∨ ¬ Generates c g m e ∧ g.predecessors m = []) ∧
      Graph.ClearWalk (fun p q => p ∈ g.predecessors q) (fun q => ¬ Generates c g q e) m n := by
  constructor
  · rintro ⟨qs, hchain, hgenerates, hlast⟩
    rcases List.eq_nil_or_concat qs with rfl | ⟨inner, m, rfl⟩
    · exact Or.inl (hlast.resolve_right fun h => h.1 rfl)
    · rw [List.concat_eq_append] at hchain hgenerates hlast
      rw [List.getLastD_concat] at hlast
      have hm : ¬ Generates c g m e := hgenerates m (by simp)
      refine Or.inr ⟨m, ?_, Graph.clearWalk_flip.mp ⟨inner, hchain, fun q hq => ?_⟩⟩
      · exact hlast.symm.imp And.right fun h => ⟨hm, h⟩
      · exact hgenerates q (List.mem_append_left [m] hq)
  · rintro (hn | ⟨m, hm, hwalk⟩)
    · exact ⟨[], List.isChain_singleton n, fun q hq => absurd hq List.not_mem_nil,
        Or.inl hn⟩
    · obtain ⟨inner, hchain, hclear⟩ := Graph.clearWalk_flip.mpr hwalk
      refine ⟨inner ++ [m], hchain, fun q hq => ?_, ?_⟩
      · rcases List.mem_append.mp hq with hq | hq
        · exact hclear q hq
        · rw [List.mem_singleton.mp hq]
          exact hm.elim (fun hkills h => h.2 hkills) And.left
      · rw [List.getLastD_concat]
        exact hm.symm.imp And.right fun h => ⟨by simp, h⟩

/-- An expression is lost at a node exactly if a walk loses it on the way there. -/
theorem arrives_iff_losingWalk (he : e ∈ expressions c g) :
    (spread c g).Arrives ⟨e, he⟩ n ↔ ∃ qs, LosingWalk c g e n qs := by
  have hstarts : ∀ m, (spread c g).Starts ⟨e, he⟩ m ↔ g.predecessors m = [] :=
    fun m => and_iff_left Std.ExtTreeSet.not_mem_empty
  rw [(spread c g).arrives_iff_clearWalk (fun _ _ _ => Iff.rfl), exists_losingWalk_iff]
  simp only [hstarts]
  exact Iff.rfl

/-- Before each node stand the expressions of the graph that no walk loses. -/
theorem exists_availableExpressions (hc : g.Consistent .forward) (hmax : c.maxIterations = none)
    (hn : g.node? n = some node) : ∃ before : ExpressionSet,
      (availableExpressions c g).before? n = some before ∧
      ∀ e, e ∈ before ↔ e ∈ expressions c g ∧ ¬ ∃ qs, LosingWalk c g e n qs := by
  have ht := truncated_availableExpressions g hmax
  rw [availableExpressions] at ht ⊢
  obtain ⟨before, hbefore, -, hmem⟩ := (spread c g).exists_solution hc ht hn
  refine ⟨before, ?_, fun e => ⟨fun he => ?_, fun ⟨he, hkept⟩ => ?_⟩⟩
  · rw [Problem.before?_solve_forward rfl, hbefore]
  · have hall : e ∈ expressions c g := (ascent c g).attained_of_arriving hbefore e he
    refine ⟨hall, fun hlost => ?_⟩
    exact (hmem ⟨e, hall⟩).mpr ((arrives_iff_losingWalk hall).mpr hlost) he
  · by_contra habsent
    exact hkept ((arrives_iff_losingWalk he).mp ((hmem ⟨e, he⟩).mp habsent))

end AvailableExpressions

open AvailableExpressions in
/-- **Available expressions are lost on no walk.** Before a node the expressions of the graph are
available that no walk back from it loses: past nodes that do not generate the expression, to a node
that kills it or into which nothing flows. -/
theorem mem_availableExpressions_iff_walk (c : DataFlowConfig) (g : Graph)
    (hc : g.Consistent .forward) (hmax : c.maxIterations = none) (n : NodeId)
    (hn : g.contains n = true) : ∃ before : ExpressionSet,
      (availableExpressions c g).before? n = some before ∧
      ∀ e, e ∈ before ↔ (∃ m, Computes c g m e) ∧ ¬ ∃ qs, LosingWalk c g e n qs := by
  obtain ⟨node, hnode⟩ := Graph.exists_node?_of_contains hn
  obtain ⟨before, hbefore, hmem⟩ := exists_availableExpressions hc hmax hnode
  refine ⟨before, hbefore, fun e => ?_⟩
  rw [hmem, mem_expressions]

open AvailableExpressions in
/-- A product is computed before a loop that counts: at the head of the loop it is available, since
no walk loses it, whereas the walk back out of the loop loses the next value of the counter. -/
theorem mem_availableExpressions_loop :
    let c : DataFlowConfig := {}
    let g := [(0, "defs", "t"), (0, "expr", "a * b"), (0, "uses", "a, b"), (2, "defs", "i"),
        (2, "expr", "i + 1"), (2, "uses", "i")].foldl (fun g (i, key, text) =>
      g.setProperty ⟨i⟩ key text) ((Graph.addShape ∅ .chain 3 "n").connect "back" ⟨2⟩ ⟨1⟩).2
    let product : Expression := ⟨"a * b", Std.ExtTreeSet.ofList ["a", "b"]⟩
    let next : Expression := ⟨"i + 1", Std.ExtTreeSet.ofList ["i"]⟩
    g.Consistent .forward ∧ c.maxIterations = none ∧ g.contains ⟨1⟩ = true ∧
      (¬ ∃ qs, LosingWalk c g product ⟨1⟩ qs) ∧ LosingWalk c g next ⟨1⟩ [⟨0⟩] ∧
      ∃ before, (availableExpressions c g).before? ⟨1⟩ = some before ∧
        product ∈ before ∧ next ∉ before := by
  intro c g product next
  have hc : g.Consistent .forward := by decide
  have hproduct : ((availableExpressions c g).before? ⟨1⟩).any (·.contains product) = true := by
    decide +kernel
  have hnext : LosingWalk c g next ⟨1⟩ [⟨0⟩] := ⟨by decide, by decide, Or.inl (by decide)⟩
  obtain ⟨before, hbefore, hmem⟩ := mem_availableExpressions_iff_walk c g hc rfl ⟨1⟩ (by decide)
  rw [hbefore, Option.any_some, Std.ExtTreeSet.contains_iff_mem] at hproduct
  exact ⟨hc, rfl, by decide, ((hmem _).mp hproduct).2, hnext, before, hbefore, hproduct,
    fun h => ((hmem _).mp h).2 ⟨_, hnext⟩⟩

end ProgramGraph.DataFlow
