import Mathlib.Algebra.Order.BigOperators.Group.List
import Mathlib.Algebra.Order.Ring.Nat
import Mathlib.Order.Basic
import ProgramGraph.DataFlow.ConstantPropagation
import ProgramGraph.Graph.Shape
import ProgramGraph.Proofs.DataFlow.FactSet
import ProgramGraph.Proofs.DataFlow.Spread
import ProgramGraph.Proofs.DataFlow.Statement

/-!
# Constants are joined over all walks

`getElem?_constantPropagation_iff_walks`: what is known of a variable before a node is what all
walks to the node have in common, where a walk may start at any node, with nothing known. Nothing is
known if no walk knows a value, a literal if some walk brings it and no walk another value, and that
the variable varies otherwise.

In the order in which nothing lies below every literal and every literal below varying, `meet` takes
the least upper bound for each variable (`getElem?_meet_le_iff`). A transfer never combines values:
it gives a variable a value of its own or copies one variable (`getElem?_transfer`), so to exceed a
bound is a property that spreads along the flow, passed on from the variable that is copied
(`ConstantPropagation.spread`). A copy of a variable of which nothing is known makes its target
unknown again, and still the facts only climb (`ConstantPropagation.ascent`).
-/

namespace ProgramGraph.DataFlow

/-! ### The order of what is known -/

/-- A literal lies below itself and below varying. -/
instance : LE ConstantValue := ⟨fun a b => a = b ∨ b = .varying⟩

namespace ConstantPropagation

variable {c : DataFlowConfig} {g : Graph} {n : NodeId} {node : Node} {v : String}
  {x y z : Option ConstantValue}

theorem value_le_iff {a b : ConstantValue} : a ≤ b ↔ a = b ∨ b = .varying := Iff.rfl

/-- Nothing lies below everything, and varying above everything. -/
theorem le_iff : x ≤ y ↔ x = none ∨ x = y ∨ y = some .varying := by
  cases x <;> cases y <;> simp [value_le_iff]

theorem le_refl (x : Option ConstantValue) : x ≤ x :=
  le_iff.mpr (Or.inr (Or.inl rfl))

theorem le_trans (hxy : x ≤ y) (hyz : y ≤ z) : x ≤ z := by
  rw [le_iff] at hxy hyz ⊢
  grind

/-- The join of two values is their least upper bound. -/
theorem join_le_iff {a b k : ConstantValue} : join a b ≤ k ↔ a ≤ k ∧ b ≤ k := by
  simp only [join, value_le_iff]
  grind

/-! ### Meet -/

/-- Joining the entries of a list one by one, where no variable has two. -/
private theorem getElem?_foldl_join {l : List (String × ConstantValue)}
    (hl : l.Pairwise fun entry entry' => entry.1 ≠ entry'.1) (a : ConstantMap)
    (hx : ∀ k, (v, k) ∈ l ↔ x = some k) :
    (l.foldl (fun joined entry => joined.alter entry.1 fun
      | none => some entry.2
      | some known => some (join known entry.2)) a)[v]? = Option.merge join a[v]? x := by
  induction l generalizing a x with
  | nil =>
    have hnone : x = none := Option.eq_none_iff_forall_ne_some.mpr fun k hk => by
      simpa using (hx k).mpr hk
    simp [hnone]
  | cons entry l ih =>
    obtain ⟨w, k⟩ := entry
    obtain ⟨hw, hl⟩ := List.pairwise_cons.mp hl
    rw [List.foldl_cons]
    by_cases hwv : w = v
    · -- the only entry of the variable: the rest of the list leaves it alone
      subst hwv
      have hrest : ∀ k', (w, k') ∈ l ↔ (none : Option ConstantValue) = some k' := by
        intro k'
        simp only [reduceCtorEq, iff_false]
        exact fun hmem => hw (w, k') hmem rfl
      rw [ih hl _ hrest, (hx k).mp List.mem_cons_self, Std.ExtTreeMap.getElem?_alter_self,
        Option.merge_none_right]
      cases a[w]? <;> rfl
    · have hrest : ∀ k', (v, k') ∈ l ↔ x = some k' := by
        intro k'
        rw [← hx k', List.mem_cons, Prod.mk.injEq]
        simp [Ne.symm hwv]
      rw [ih hl _ hrest, Std.ExtTreeMap.getElem?_alter]
      simp [hwv]

/-- The meet joins what is known of each variable. -/
theorem getElem?_meet (a b : ConstantMap) (v : String) :
    ((problem c).meet a b)[v]? = Option.merge join a[v]? b[v]? := by
  dsimp only [problem]
  rw [meet, Std.ExtTreeMap.foldl_eq_foldl_toList]
  refine getElem?_foldl_join (Std.ExtTreeMap.distinct_keys_toList.imp ?_) a fun k => ?_
  · intro entry entry' hne heq
    exact hne (by rw [heq]; exact Std.ReflOrd.compare_self)
  · exact Std.ExtTreeMap.mem_toList_iff_getElem?_eq_some

/-- The meet is the least upper bound. -/
theorem getElem?_meet_le_iff {a b : ConstantMap} :
    ((problem c).meet a b)[v]? ≤ x ↔ a[v]? ≤ x ∧ b[v]? ≤ x := by
  rw [getElem?_meet]
  exact Option.merge_le_iff fun _ _ _ => join_le_iff

/-! ### Transfer -/

/-- What a node assigns: a value, or what is known of a variable before it. -/
def assignedFrom (c : DataFlowConfig) (node : Node) : ConstantValue ⊕ String :=
  let literal := node.properties.get c.valueKey
  if !literal.isEmpty then .inl (.constant literal)
  else match (uses c node).toList with
    | [source] => .inr source
    | _ => .inl .varying

/-- Where the value of a variable after a node is taken from. -/
def origin (c : DataFlowConfig) (node : Node) (v : String) : ConstantValue ⊕ String :=
  if v ∈ defs c node then assignedFrom c node else .inr v

/-- What a definition assigns is known from one variable at most. -/
theorem assigned_eq (fact : ConstantMap) :
    assigned c node fact = (assignedFrom c node).elim some fun w => fact[w]? := by
  simp only [assigned, assignedFrom]
  split
  · rfl
  · rcases (uses c node).toList with _ | ⟨source, _ | ⟨other, rest⟩⟩ <;> rfl

/-- A node gives a variable a value of its own, or what is known of one variable before it. -/
theorem getElem?_transfer (fact : ConstantMap) (v : String) :
    ((problem c).transfer n node fact)[v]? = (origin c node v).elim some fun w => fact[w]? := by
  have fold : ∀ (l : List String) (known : ConstantMap),
      (l.foldl (fun known w => known.alter w fun _ => assigned c node fact) known)[v]? =
        if v ∈ l then assigned c node fact else known[v]? := by
    intro l
    induction l with
    | nil => simp
    | cons w l ih =>
      intro known
      rw [List.foldl_cons, ih, Std.ExtTreeMap.getElem?_alter]
      by_cases hvl : v ∈ l
      · simp [hvl]
      · simp [hvl, eq_comm (a := w)]
  dsimp only [problem]
  rw [transfer, Std.ExtTreeSet.foldl_eq_foldl_toList, fold, origin]
  simp only [Std.ExtTreeSet.mem_toList]
  split
  · rw [assigned_eq]
  · rfl

/-! ### The iteration ends -/

/-- All variables that are defined in the graph. -/
def allDefined (c : DataFlowConfig) (g : Graph) : NameSet :=
  g.nodes.toList.foldl (fun defined node => defined ∪ defs c node) ∅

/-- Whatever a node of the graph defines is among the defined variables. -/
theorem mem_allDefined (hn : g.node? n = some node) (hv : v ∈ defs c node) : v ∈ allDefined c g :=
  FiniteSet.mem_foldl_union.mpr ⟨node, Graph.mem_nodes_iff.mpr ⟨n, hn⟩, hv⟩

/-- How far up a value stands. -/
def depth : Option ConstantValue → Nat
  | none => 0
  | some (.constant _) => 1
  | some .varying => 2

/-- A value is undefined at first, then constant, and then varying. -/
theorem depth_le_two (x : Option ConstantValue) : depth x ≤ 2 := by
  rcases x with _ | _ | _ <;> simp [depth]

/-- A value that rises gets deeper, so that it can rise twice at most. -/
theorem depth_lt_depth (hle : x ≤ y) (hne : x ≠ y) : depth x < depth y := by
  rcases le_iff.mp hle with rfl | rfl | rfl
  · rcases y with _ | _ | _ <;> simp_all [depth]
  · exact absurd rfl hne
  · rcases x with _ | _ | _ <;> simp_all [depth]

theorem depth_le_depth (hle : x ≤ y) : depth x ≤ depth y := by
  by_cases heq : x = y
  · rw [heq]
  · exact (depth_lt_depth hle heq).le

/-- What is known of each variable climbs, and only variables that are defined are known. -/
def ascent (c : DataFlowConfig) (g : Graph) : Ascent (problem c) g where
  le a b := ∀ v : String, a[v]? ≤ b[v]?
  Attained a := ∀ v : String, v ∉ allDefined c g → a[v]? = none
  rank a := ((allDefined c g).toList.map fun v => depth a[v]?).sum
  height := height c g
  le_refl a v := le_refl a[v]?
  le_trans hab hbc v := le_trans (hab v) (hbc v)
  meet_le_meet {a a' b b'} ha hb v := by
    obtain ⟨ha', hb'⟩ := getElem?_meet_le_iff.mp (le_refl ((problem c).meet a' b')[v]?)
    exact getElem?_meet_le_iff.mpr ⟨le_trans (ha v) ha', le_trans (hb v) hb'⟩
  transfer_le_transfer {a b} n node hle v := by
    rw [getElem?_transfer, getElem?_transfer]
    cases origin c node v with
    | inl k => exact le_refl (some k)
    | inr w => exact hle w
  attained_initial v _ := by
    exact Std.ExtTreeMap.getElem?_empty
  attained_boundary v _ := by
    exact Std.ExtTreeMap.getElem?_empty
  attained_meet {a b} ha hb v hv := by
    rw [getElem?_meet, ha v hv, hb v hv]
    rfl
  attained_transfer {a n node} hn ha v hv := by
    have hnot : v ∉ defs c node := fun h => hv (mem_allDefined hn h)
    rw [getElem?_transfer, origin, if_neg hnot]
    exact ha v hv
  initial_le {a} _ v := by
    have hempty : ((problem c).initial g)[v]? = none := Std.ExtTreeMap.getElem?_empty
    rw [hempty]
    exact Option.none_le
  rank_lt_rank {a b} ha hb hle hne := by
    obtain ⟨v, hv⟩ : ∃ v : String, a[v]? ≠ b[v]? := by
      by_contra! hsame
      exact hne (Std.ExtTreeMap.ext_getElem? fun v => hsame v)
    have hdefined : v ∈ allDefined c g := by
      by_contra hnot
      exact hv ((ha v hnot).trans (hb v hnot).symm)
    refine List.sum_lt_sum _ _ (fun w _ => depth_le_depth (hle w)) ⟨v, ?_, ?_⟩
    · exact Std.ExtTreeSet.mem_toList.mpr hdefined
    · exact depth_lt_depth (hle v) hv
  rank_le_height {a} _ := by
    calc ((allDefined c g).toList.map fun v => depth a[v]?).sum
        ≤ ((allDefined c g).toList.map fun _ => 2).sum := List.sum_le_sum fun v _ => depth_le_two _
      _ = 2 * (allDefined c g).size := by simp [Nat.mul_comm]

/-- Without a budget the iteration is never truncated. -/
theorem truncated_constantPropagation (g : Graph) (hmax : c.maxIterations = none) :
    (constantPropagation c g).truncated = false := by
  rw [constantPropagation, hmax]
  exact (ascent c g).truncated_solve le_rfl

/-! ### Walks -/

/-- That more is known of a variable than a bound. -/
structure Excess where
  variableName : String
  bound : Option ConstantValue

/-- An excess spreads: a node raises it that gives the variable a value above the bound, and passes
it on from the variable that it copies. -/
def spread (c : DataFlowConfig) (g : Graph) : Spread (problem c) g Excess where
  Holds a fact := ¬ fact[a.variableName]? ≤ a.bound
  Raises a n := ∃ node, g.node? n = some node ∧
    ∃ k, origin c node a.variableName = .inl k ∧ ¬ some k ≤ a.bound
  Passes b a n := b.bound = a.bound ∧
    ∃ node, g.node? n = some node ∧ origin c node a.variableName = .inr b.variableName
  holds_meet := by
    intro a x y
    rw [getElem?_meet_le_iff, not_and_or]
  not_holds_initial a := by
    have hempty : ((problem c).initial g)[a.variableName]? = none := Std.ExtTreeMap.getElem?_empty
    rw [hempty, not_not]
    exact Option.none_le
  holds_transfer {a fact n node} hn := by
    rw [getElem?_transfer]
    cases horigin : origin c node a.variableName with
    | inl k => simp [hn, horigin]
    | inr w =>
      simp only [hn, horigin, Option.some.injEq, exists_eq_left', reduceCtorEq, false_and,
        exists_false, false_or, Sum.inr.injEq]
      constructor
      · intro hw
        exact ⟨⟨w, a.bound⟩, ⟨rfl, rfl⟩, hw⟩
      · rintro ⟨⟨w', y⟩, ⟨rfl, rfl⟩, hw⟩
        exact hw

/-- The values of a variable before a node, over all walks that lead there: what is known of it when
the nodes of the walk are passed one after the other, with nothing known at first. -/
def PathValue (c : DataFlowConfig) (g : Graph) (n : NodeId) (v : String)
    (x : Option ConstantValue) : Prop :=
  ∃ ps, ps ≠ [] ∧ (ps ++ [n]).IsChain (fun p q => p ∈ g.predecessors q) ∧
    ((problem c).along g ∅ ps)[v]? = x

/-- A variable exceeds a bound at a node exactly if some path gives it a value that does. -/
theorem arrives_iff_pathValue :
    (spread c g).Arrives ⟨v, x⟩ n ↔ ∃ y, PathValue c g n v y ∧ ¬ y ≤ x := by
  rw [(spread c g).arrives_iff_along (spread c g).not_holds_initial]
  constructor
  · rintro ⟨ps, hps, hchain, hx⟩
    exact ⟨_, ⟨ps, hps, hchain, rfl⟩, hx⟩
  · rintro ⟨y, ⟨ps, hps, hchain, rfl⟩, hx⟩
    exact ⟨ps, hps, hchain, hx⟩

/-- Before each node stands the least upper bound of the values on all walks. -/
theorem exists_constantPropagation (hc : g.Consistent .forward) (hmax : c.maxIterations = none)
    (hn : g.node? n = some node) : ∃ before : ConstantMap,
      (constantPropagation c g).before? n = some before ∧
      ∀ v x, before[v]? ≤ x ↔ ∀ y, PathValue c g n v y → y ≤ x := by
  have ht := truncated_constantPropagation g hmax
  rw [constantPropagation] at ht ⊢
  obtain ⟨before, hbefore, -, hholds⟩ := (spread c g).exists_solution hc ht hn
  refine ⟨before, ?_, fun v x => ?_⟩
  · rw [Problem.before?_solve_forward rfl, hbefore]
  · have hexceeds : ¬ before[v]? ≤ x ↔ ∃ y, PathValue c g n v y ∧ ¬ y ≤ x :=
      (hholds ⟨v, x⟩).trans arrives_iff_pathValue
    rw [← not_iff_not, hexceeds]
    simp

/-! ### Least upper bounds by cases -/

/-- No value is known. -/
def NoValue (values : Option ConstantValue → Prop) : Prop :=
  ∀ x, values x → x = none

/-- A literal is known, and nothing else. -/
def OneLiteral (values : Option ConstantValue → Prop) (literal : String) : Prop :=
  values (some (.constant literal)) ∧ ∀ x, values x → x = none ∨ x = some (.constant literal)

variable {values : Option ConstantValue → Prop}

/-- The least upper bound of some values is undefined exactly if none of them is a value. -/
theorem eq_none_iff_noValue (h : ∀ y, x ≤ y ↔ ∀ z, values z → z ≤ y) :
    x = none ↔ NoValue values := by
  rw [← Option.le_none, h none]
  simp only [Option.le_none, NoValue]

/-- It is a constant exactly if this is the one literal among them. -/
theorem eq_constant_iff_oneLiteral (h : ∀ y, x ≤ y ↔ ∀ z, values z → z ≤ y) {literal : String} :
    x = some (.constant literal) ↔ OneLiteral values literal := by
  have hbelow : ∀ z : Option ConstantValue, z ≤ some (.constant literal) ↔
      z = none ∨ z = some (.constant literal) := by
    intro z
    rw [le_iff]
    simp
  have hall : x ≤ some (.constant literal) ↔
      ∀ z, values z → z = none ∨ z = some (.constant literal) := by
    simp only [h, hbelow]
  constructor
  · rintro rfl
    have hvalues := hall.mp (le_refl _)
    -- some walk must know a value, or nothing would be known, and the literal is all it can be
    obtain ⟨z, hz, hne⟩ : ∃ z, values z ∧ z ≠ none := by
      by_contra! hnone
      exact absurd ((eq_none_iff_noValue h).mpr hnone) (by simp)
    refine ⟨?_, hvalues⟩
    rw [← (hvalues z hz).resolve_left hne]
    exact hz
  · rintro ⟨hliteral, hvalues⟩
    refine ((hbelow x).mp (hall.mpr hvalues)).resolve_left fun hx => ?_
    exact absurd ((eq_none_iff_noValue h).mp hx _ hliteral) (by simp)

/-- Otherwise it varies. -/
theorem eq_varying_iff (h : ∀ y, x ≤ y ↔ ∀ z, values z → z ≤ y) :
    x = some .varying ↔ ¬ NoValue values ∧ ∀ literal, ¬ OneLiteral values literal := by
  simp only [← eq_none_iff_noValue h, ← eq_constant_iff_oneLiteral h]
  rcases x with _ | _ | _ <;> simp

end ConstantPropagation

open ConstantPropagation in
/-- **Constants are joined over all walks.** Before a node nothing is known of a variable if nothing
is on any walk there, a literal if some walk brings it and every other walk that or nothing, and
that it varies in every other case. -/
theorem getElem?_constantPropagation_iff_walks (c : DataFlowConfig) (g : Graph)
    (hc : g.Consistent .forward) (hmax : c.maxIterations = none) (n : NodeId)
    (hn : g.contains n = true) : ∃ before : ConstantMap,
      (constantPropagation c g).before? n = some before ∧ ∀ v,
        (before[v]? = none ↔ NoValue (PathValue c g n v)) ∧
        (∀ literal, before[v]? = some (.constant literal) ↔
          OneLiteral (PathValue c g n v) literal) ∧
        (before[v]? = some .varying ↔ ¬ NoValue (PathValue c g n v) ∧
          ∀ literal, ¬ OneLiteral (PathValue c g n v) literal) := by
  obtain ⟨node, hnode⟩ := Graph.exists_node?_of_contains hn
  obtain ⟨before, hbefore, hjoin⟩ := exists_constantPropagation hc hmax hnode
  exact ⟨before, hbefore, fun v => ⟨eq_none_iff_noValue (hjoin v),
    fun _ => eq_constant_iff_oneLiteral (hjoin v), eq_varying_iff (hjoin v)⟩⟩

open ConstantPropagation in
/-- A counter and a bound are set before a loop that counts: at the head of the loop the counter
varies, since the walk round the loop brings no literal, and on all walks the bound is the same. -/
theorem getElem?_constantPropagation_loop :
    let c : DataFlowConfig := {}
    let g := [(0, "defs", "i, k"), (0, "value", "0"), (2, "defs", "i"), (2, "uses", "i, k")].foldl
      (fun g (i, key, text) => g.setProperty ⟨i⟩ key text)
      ((Graph.addShape ∅ .chain 3 "n").connect "back" ⟨2⟩ ⟨1⟩).2
    g.Consistent .forward ∧ c.maxIterations = none ∧ g.contains ⟨1⟩ = true ∧
      OneLiteral (PathValue c g ⟨1⟩ "k") "0" ∧
      ∃ before, (constantPropagation c g).before? ⟨1⟩ = some before ∧
        before["i"]? = some .varying ∧ before["k"]? = some (.constant "0") := by
  intro c g
  have hc : g.Consistent .forward := by decide
  have hbound : ((constantPropagation c g).before? ⟨1⟩).bind (·["k"]?) = some (.constant "0") := by
    decide +kernel
  have hcounter : PathValue c g ⟨1⟩ "i" (some .varying) :=
    ⟨[⟨0⟩, ⟨1⟩, ⟨2⟩], by simp, by decide, by decide +kernel⟩
  obtain ⟨before, hbefore, hvalues⟩ :=
    getElem?_constantPropagation_iff_walks c g hc rfl ⟨1⟩ (by decide)
  rw [hbefore, Option.bind_some] at hbound
  refine ⟨hc, rfl, by decide, ((hvalues "k").2.1 "0").mp hbound, before, hbefore, ?_, hbound⟩
  refine (hvalues "i").2.2.mpr ⟨fun hnone => ?_, fun literal hliteral => ?_⟩
  · exact absurd (hnone _ hcounter) (by simp)
  · exact absurd (hliteral.2 _ hcounter) (by simp)

end ProgramGraph.DataFlow
