import ProgramGraph.Proofs.DataFlow.ConstantPropagation

/-!
# Constants in the runs of a graph

Here the statements of a graph have a meaning. A run follows a walk, from any node on and with all
variables undefined at first, and each node it passes assigns to the variables that it defines: its
literal, or else the value of its expression, or else, if it uses one variable, the value of that
one, or else anything at all. `Arrives` collects the stores that runs bring to a point.

`constant_iff_not_holdsComputed` says for which variables the literals of `constantPropagation` are
right. The analysis does not read expressions: a node that uses one variable counts as a copy of it,
also when it computes something (`assignedFrom_eq`). So the value that a run brings is the literal,
under every interpretation of the expressions, exactly if no run can bring a value there that was
computed from a single variable. Such values spread by copies alone (`HoldsComputed`), whatever the
expressions mean.

What is known at a point bounds the store of every run, unless a computed value gets in between
(`bounded_of_arrives`).
-/

namespace ProgramGraph.DataFlow

/-! ### Statements and their meaning -/

/-- What a node assigns to the variables that it defines. -/
inductive Statement where
  | literal (text : String)
  | expression (e : Expression)
  /-- The value of a variable. -/
  | copy (source : String)
  /-- The node does not say what. -/
  | unknown
deriving DecidableEq

/-- A literal comes first, then an expression, then a single use. -/
def statementOf (c : DataFlowConfig) (node : Node) : Statement :=
  let text := node.properties.get c.valueKey
  if !text.isEmpty then .literal text
  else match expressionOf c node with
    | some e => .expression e
    | none => match (uses c node).toList with
      | [source] => .copy source
      | _ => .unknown

/-- The values of the variables that are defined. -/
abbrev Store := String → Option String

/-- What expressions mean: a value for each list of values of the operands, which stand in the order
of their names. -/
abbrev Interpretation := Expression → List (Option String) → Option String

/-- The statement can assign the value. -/
def Statement.Assigns (I : Interpretation) (σ : Store) : Statement → Option String → Prop
  | literal text, x => x = some text
  | expression e, x => x = I e (e.operands.toList.map σ)
  | copy source, x => x = σ source
  | unknown, _ => True

/-- The node can take the first store to the second. -/
def Executes (I : Interpretation) (c : DataFlowConfig) (node : Node) (σ σ' : Store) : Prop :=
  ∀ v, if v ∈ defs c node then (statementOf c node).Assigns I σ (σ' v) else σ' v = σ v

/-- A run over some walk brings the store to the point. -/
inductive Arrives (I : Interpretation) (c : DataFlowConfig) (g : Graph) : Point → Store → Prop
  | start (n : NodeId) : Arrives I c g (.before n) fun _ => none
  | execute {n : NodeId} {node : Node} {σ σ' : Store} : g.node? n = some node →
      Arrives I c g (.before n) σ → Executes I c node σ σ' → Arrives I c g (.after n) σ'
  | follow {p n : NodeId} {σ : Store} : p ∈ g.predecessors n → Arrives I c g (.after p) σ →
      Arrives I c g (.before n) σ

/-- A run can bring a value in the variable to the point that was computed from one variable. -/
inductive HoldsComputed (c : DataFlowConfig) (g : Graph) : Point → String → Prop
  | compute {n : NodeId} {node : Node} {e : Expression} {source v : String} :
      g.node? n = some node → v ∈ defs c node → statementOf c node = .expression e →
      e.operands.toList = [source] → HoldsComputed c g (.after n) v
  | copy {n : NodeId} {node : Node} {source v : String} : g.node? n = some node →
      v ∈ defs c node → statementOf c node = .copy source →
      HoldsComputed c g (.before n) source → HoldsComputed c g (.after n) v
  | keep {n : NodeId} {node : Node} {v : String} : g.node? n = some node → v ∉ defs c node →
      HoldsComputed c g (.before n) v → HoldsComputed c g (.after n) v
  | follow {p n : NodeId} {v : String} : p ∈ g.predecessors n → HoldsComputed c g (.after p) v →
      HoldsComputed c g (.before n) v

namespace ConstantPropagation

variable {c : DataFlowConfig} {g : Graph} {n : NodeId} {node : Node} {v : String} {x : Point}
  {I : Interpretation} {σ σ' : Store}

/-! ### What the analysis takes a statement for -/

/-- The operands of the expression that a node computes are the variables it uses. -/
theorem operands_eq_uses {e : Expression} (he : expressionOf c node = some e) :
    e.operands = uses c node := by
  simp only [expressionOf] at he
  split at he
  · cases he
  · cases he
    rfl

/-- An expression of one variable is taken for a copy of it, and any other for varying. -/
theorem assignedFrom_eq : assignedFrom c node = match statementOf c node with
    | .literal text => .inl (.constant text)
    | .copy source => .inr source
    | .unknown => .inl .varying
    | .expression e => match e.operands.toList with
      | [source] => .inr source
      | _ => .inl .varying := by
  unfold assignedFrom statementOf
  dsimp only
  split
  · rfl
  · cases he : expressionOf c node with
    | none => rcases (uses c node).toList with _ | ⟨source, _ | ⟨other, rest⟩⟩ <;> rfl
    | some e =>
      rcases huses : (uses c node).toList with _ | ⟨source, _ | ⟨other, rest⟩⟩ <;>
        simp only [operands_eq_uses he, huses]

/-! ### Facts at points -/

/-- The facts of the analysis, point by point: after a node stands what the node makes of the fact
before it, and before a node no less than after each of its predecessors. -/
structure Explains (c : DataFlowConfig) (g : Graph) (facts : Point → ConstantMap) : Prop where
  fact?_eq : ∀ x, g.contains x.node = true →
    (constantPropagation c g).fact? x = some (facts x)
  after_eq : ∀ n node, g.node? n = some node →
    facts (.after n) = (problem c).transfer n node (facts (.before n))
  after_le : ∀ p n, p ∈ g.predecessors n → ∀ v : String,
    (facts (.after p))[v]? ≤ (facts (.before n))[v]?

/-- The facts of an iteration: what arrives at a node, and what the node produces. -/
def factsOf (c : DataFlowConfig) (g : Graph) (s : Iteration ConstantMap) : Point → ConstantMap
  | .before n => (problem c).arrivingAt g s.produced n
  | .after n => s.produced[n.index]?.getD ∅

/-- The facts of a solution explain one another. -/
theorem exists_explains (hc : g.Consistent .forward) (hmax : c.maxIterations = none) :
    ∃ facts, Explains c g facts := by
  have ht := truncated_constantPropagation g hmax
  rw [constantPropagation] at ht
  obtain ⟨hs, hq⟩ := Problem.settled_iterate hc ht
  set s := (problem c).iterate g _ ((problem c).start g) with hsdef
  have hnq : ∀ n, n ∉ s.queue := by
    intro n
    rw [hq]
    exact List.not_mem_nil
  have hproduced : ∀ {n node}, g.node? n = some node → s.produced[n.index]? =
      some ((problem c).transfer n node ((problem c).arrivingAt g s.produced n)) :=
    fun hn => hs.produced_eq _ _ hn (hnq _)
  refine ⟨factsOf c g s, ⟨?_, ?_, ?_⟩⟩
  · rintro (n | n) hn
    · exact (Problem.before?_solve_forward rfl n).trans (hs.arriving_eq n hn (hnq n))
    · obtain ⟨node, hnode⟩ : ∃ node, g.node? n = some node := Graph.exists_node?_of_contains hn
      refine (Problem.after?_solve_forward rfl n).trans ?_
      rw [factsOf, ← hsdef, hproduced hnode, Option.getD_some]
  · intro n node hnode
    rw [factsOf, factsOf, hproduced hnode, Option.getD_some]
  · intro p n hp v
    obtain ⟨node, hnode⟩ := Graph.exists_node?_of_contains
      (Graph.contains_of_mem_adjacent (d := .backward) hp)
    rw [factsOf, factsOf, hproduced hnode, Option.getD_some]
    -- if more was known after the predecessor, the excess would hold of the meet
    by_contra hexcess
    have hholds := ((spread c g).holds_arrivingAt (a := ⟨v, _⟩) hs.produced_size n).mpr
      (Or.inr ⟨p, hp, _, hproduced hnode, hexcess⟩)
    exact hholds (le_refl _)

/-! ### Runs stay within the facts -/

variable {facts : Point → ConstantMap}

/-- What a statement assigns is known afterwards, or was computed from one variable. -/
theorem Explains.assigns_le (hf : Explains c g facts) (hn : g.node? n = some node)
    (hv : v ∈ defs c node) {value : Option String}
    (hvalue : (statementOf c node).Assigns I σ value)
    (hσ : ∀ w, HoldsComputed c g (.before n) w ∨
      (σ w).map ConstantValue.constant ≤ (facts (.before n))[w]?) :
    HoldsComputed c g (.after n) v ∨
      value.map ConstantValue.constant ≤ (facts (.after n))[v]? := by
  rw [hf.after_eq n node hn, getElem?_transfer, origin, if_pos hv, assignedFrom_eq]
  cases hstatement : statementOf c node with
  | literal text =>
    rw [hstatement] at hvalue
    rw [show value = some text from hvalue]
    exact Or.inr (le_refl _)
  | unknown => exact Or.inr (le_iff.mpr (Or.inr (Or.inr rfl)))
  | copy source =>
    rw [hstatement] at hvalue
    rw [show value = σ source from hvalue]
    exact (hσ source).imp_left (.copy hn hv hstatement)
  | expression e =>
    dsimp only
    split
    · rename_i source hoperands
      exact Or.inl (.compute hn hv hstatement hoperands)
    · exact Or.inr (le_iff.mpr (Or.inr (Or.inr rfl)))

/-- **What is known bounds every run**, for the variables to which no computed value comes. -/
theorem bounded_of_arrives (hf : Explains c g facts) (hσ : Arrives I c g x σ) (v : String) :
    HoldsComputed c g x v ∨ (σ v).map ConstantValue.constant ≤ (facts x)[v]? := by
  induction hσ generalizing v with
  | start n => exact Or.inr Option.none_le
  | @execute n node σ σ' hn _ hexecutes ih =>
    have hv := hexecutes v
    split at hv
    · rename_i hdefs
      exact hf.assigns_le hn hdefs hv ih
    · rename_i hdefs
      rw [hv, hf.after_eq n node hn, getElem?_transfer, origin, if_neg hdefs]
      exact (ih v).imp_left (.keep hn hdefs)
  | @follow p n σ hp _ ih =>
    refine (ih v).imp (.follow hp) fun hle => ?_
    exact le_trans hle (hf.after_le p n hp v)

/-- Only no value and the literal itself lie below a constant. -/
theorem map_constant_le_iff {value : Option String} {literal : String} :
    value.map ConstantValue.constant ≤ some (.constant literal) ↔
      value = none ∨ value = some literal := by
  rw [le_iff]
  cases value <;> simp

/-! ### Where computed values come -/

/-- A variable that is given literals only holds no computed value. -/
theorem not_holdsComputed_of_literal (hliteral : ∀ n node, g.node? n = some node →
    v ∈ defs c node → ∃ text, statementOf c node = .literal text) : ¬ HoldsComputed c g x v := by
  intro hx
  induction hx with
  | compute hn hv hstatement _ =>
    obtain ⟨text, htext⟩ := hliteral _ _ hn hv
    rw [htext] at hstatement
    cases hstatement
  | copy hn hv hstatement =>
    obtain ⟨text, htext⟩ := hliteral _ _ hn hv
    rw [htext] at hstatement
    cases hstatement
  | keep _ _ _ ih => exact ih hliteral
  | follow _ _ ih => exact ih hliteral

/-- A store that a node can lead to; what is unknown is left undefined. -/
def next (I : Interpretation) (c : DataFlowConfig) (node : Node) (σ : Store) : Store := fun v =>
  if v ∈ defs c node then match statementOf c node with
    | .literal text => some text
    | .expression e => I e (e.operands.toList.map σ)
    | .copy source => σ source
    | .unknown => none
  else σ v

/-- Running a node by the interpretation is one of the ways in which it can run. -/
theorem executes_next (I : Interpretation) (c : DataFlowConfig) (node : Node) (σ : Store) :
    Executes I c node σ (next I c node σ) := by
  intro v
  unfold next
  split
  · cases statementOf c node with
    | unknown => trivial
    | _ => rfl
  · rfl

/-- If all expressions have one value, a run brings that value wherever a computed one can come. -/
theorem exists_arrives_of_holdsComputed (hx : HoldsComputed c g x v) (value : Option String) :
    ∃ σ, Arrives (fun _ _ => value) c g x σ ∧ σ v = value := by
  induction hx with
  | @compute n node e source v hn hv hstatement _ =>
    refine ⟨_, .execute hn (.start n) (executes_next _ c node _), ?_⟩
    simp [next, hv, hstatement]
  | @copy n node source v hn hv hstatement _ ih =>
    obtain ⟨σ, hσ, hvalue⟩ := ih
    refine ⟨_, .execute hn hσ (executes_next _ c node σ), ?_⟩
    simp [next, hv, hstatement, hvalue]
  | @keep n node v hn hv _ ih =>
    obtain ⟨σ, hσ, hvalue⟩ := ih
    refine ⟨_, .execute hn hσ (executes_next _ c node σ), ?_⟩
    simp [next, hv, hvalue]
  | follow hp _ ih =>
    obtain ⟨σ, hσ, hvalue⟩ := ih
    exact ⟨σ, .follow hp hσ, hvalue⟩

end ConstantPropagation

open ConstantPropagation in
/-- **A literal is right exactly if no computed value comes.** Where the analysis reports a literal,
before or after a node, all runs have that literal in the variable or leave it undefined, whatever
the expressions mean, if and only if no run can bring a value there that was computed from a single
variable. -/
theorem constant_iff_not_holdsComputed (c : DataFlowConfig) (g : Graph) (hc : g.Consistent .forward)
    (hmax : c.maxIterations = none) (x : Point) (hx : g.contains x.node = true) :
    ∃ fact : ConstantMap, (constantPropagation c g).fact? x = some fact ∧
      ∀ v literal, fact[v]? = some (.constant literal) →
        ((∀ I σ, Arrives I c g x σ → σ v = none ∨ σ v = some literal) ↔
          ¬ HoldsComputed c g x v) := by
  obtain ⟨facts, hf⟩ := exists_explains hc hmax
  refine ⟨facts x, hf.fact?_eq x hx, fun v literal hliteral => ⟨fun hsound hcomputed => ?_, ?_⟩⟩
  · obtain ⟨other, hother⟩ : ∃ other, other ≠ literal := ⟨literal ++ "0", by simp⟩
    obtain ⟨σ, hσ, hvalue⟩ := exists_arrives_of_holdsComputed hcomputed (some other)
    rcases hsound _ σ hσ with hnone | hsome
    · rw [hvalue] at hnone
      cases hnone
    · rw [hvalue] at hsome
      exact hother (Option.some.inj hsome)
  · intro hclear I σ hσ
    have hle := (bounded_of_arrives hf hσ v).resolve_left hclear
    rw [hliteral] at hle
    exact map_constant_le_iff.mp hle

open ConstantPropagation in
/-- A counter and a bound are set before a loop that counts with `i + 1`. At the head of the loop
the analysis reports the first literal for both: of the bound that is right, since the only node
that computes from one variable does not define it; of the counter it is not. -/
theorem constant_iff_not_holdsComputed_loop :
    let c : DataFlowConfig := {}
    let g := [(0, "defs", "i, k"), (0, "value", "0"), (2, "defs", "i"), (2, "uses", "i"),
        (2, "expr", "i + 1")].foldl (fun g (i, key, text) => g.setProperty ⟨i⟩ key text)
      ((Graph.addShape ∅ .chain 3 "n").connect "back" ⟨2⟩ ⟨1⟩).2
    let x := Point.before ⟨1⟩
    g.Consistent .forward ∧ c.maxIterations = none ∧ g.contains x.node = true ∧
      ∃ fact : ConstantMap, (constantPropagation c g).fact? x = some fact ∧
        fact["k"]? = some (.constant "0") ∧ fact["i"]? = some (.constant "0") ∧
        (∀ I σ, Arrives I c g x σ → σ "k" = none ∨ σ "k" = some "0") ∧
        ¬ ∀ I σ, Arrives I c g x σ → σ "i" = none ∨ σ "i" = some "0" := by
  intro c g x
  have hc : g.Consistent .forward := by decide
  have hbound : ((constantPropagation c g).fact? x).bind (·["k"]?) = some (.constant "0") := by
    decide +kernel
  have hcounter : ((constantPropagation c g).fact? x).bind (·["i"]?) = some (.constant "0") := by
    decide +kernel
  obtain ⟨fact, hfact, hexact⟩ := constant_iff_not_holdsComputed c g hc rfl x (by decide)
  rw [hfact, Option.bind_some] at hbound hcounter
  have hset : ∀ node ∈ g.nodes.toList, "k" ∈ defs c node → statementOf c node = .literal "0" := by
    decide +kernel
  have hstep : ∃ node, g.node? ⟨2⟩ = some node ∧ "i" ∈ defs c node ∧
      statementOf c node = .expression ⟨"i + 1", .ofList ["i"]⟩ := by
    decide +kernel
  refine ⟨hc, rfl, by decide, fact, hfact, hbound, hcounter, (hexact _ _ hbound).mpr ?_,
    fun hright => (hexact _ _ hcounter).mp hright ?_⟩
  · refine not_holdsComputed_of_literal fun n node hn hk => ⟨"0", hset node ?_ hk⟩
    exact Graph.mem_nodes_iff.mpr ⟨n, hn⟩
  · obtain ⟨node, hnode, hi, hstatement⟩ := hstep
    have hoperands : (Std.ExtTreeSet.ofList ["i"] : NameSet).toList = ["i"] := by decide +kernel
    exact .follow (by decide) (.compute hnode hi hstatement hoperands)

/-- Reads a number and gives the next one. -/
def increment : Interpretation
  | _, [some text] => (Text.readWord64? text).map fun k => toString (k + 1)
  | _, _ => none

open ConstantPropagation in
/-- A counter that is set to zero and then counted up is reported to be zero afterwards. -/
theorem ne_constant_after_increment :
    let c : DataFlowConfig := {}
    let g := [(0, "defs", "i"), (0, "value", "0"), (1, "defs", "i"), (1, "uses", "i"),
        (1, "expr", "i + 1")].foldl (fun g (i, key, text) => g.setProperty ⟨i⟩ key text)
      (Graph.addShape ∅ .chain 2 "n")
    let x := Point.after ⟨1⟩
    g.Consistent .forward ∧ c.maxIterations = none ∧
      ((constantPropagation c g).fact? x).bind (·["i"]?) = some (.constant "0") ∧
      ∃ σ, Arrives increment c g x σ ∧ σ "i" = some "1" := by
  intro c g x
  obtain ⟨first, hfirst, hi, hliteral⟩ : ∃ node, g.node? ⟨0⟩ = some node ∧ "i" ∈ defs c node ∧
      statementOf c node = .literal "0" := by decide +kernel
  obtain ⟨second, hsecond, hi', hexpression⟩ : ∃ node, g.node? ⟨1⟩ = some node ∧
      "i" ∈ defs c node ∧ statementOf c node = .expression ⟨"i + 1", .ofList ["i"]⟩ := by
    decide +kernel
  have hoperands : (Std.ExtTreeSet.ofList ["i"] : NameSet).toList = ["i"] := by decide +kernel
  have hset := Arrives.execute hfirst (.start _) (executes_next increment c first _)
  have hcounted := Arrives.execute hsecond (.follow (by decide) hset)
    (executes_next increment c second _)
  refine ⟨by decide, rfl, by decide +kernel, _, hcounted, ?_⟩
  simp only [next, hi, hi', hliteral, hexpression, hoperands, if_true, List.map_cons, List.map_nil]
  decide +kernel

end ProgramGraph.DataFlow
