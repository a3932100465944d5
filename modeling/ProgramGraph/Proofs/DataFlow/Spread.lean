import ProgramGraph.Proofs.DataFlow.Equations
import ProgramGraph.Proofs.Graph.Walk

/-!
# Properties that spread along the flow

The four analyses ask of a fact whether it has some property: whether a set holds an element, lacks
one, or a value is not below a bound. Such a property *spreads* when it holds of a meet exactly if
it holds of a part, not of the initial fact, and when a node can do only two things for it: raise
it, whatever arrives, or pass it on. A node may pass a property on as another one, as an assignment
does that copies a variable, so a `Spread` is a family of properties.

`Spread.Arrives` says by induction how a property comes to a node: it holds at the boundary, or a
source raises it, or a source passes on a property that came to it. This does not mention facts or
the order of the iteration, and yet

* whatever holds of a fact, at any time and on every graph, has arrived so (`Spread.sound_iterate`);
* in a state that solves the equations all that arrives holds (`Spread.holds_of_arrives`);
* hence a solution is characterized by `Arrives` alone (`Spread.exists_solution`).

Properties arrive along walks: in general those that hold of the fact that some walk produces from
the initial one (`Spread.arrives_iff_along`), and where properties are only passed on unchanged,
over walks all of whose inner nodes let them through (`Spread.arrives_iff_clearWalk`).
-/

namespace ProgramGraph.DataFlow

universe u v

variable {Fact : Type u} {P : Problem Fact} {g : Graph} {A : Type v}

namespace Problem

variable (P g) in
/-- The fact that the nodes of a walk produce in turn, from a first one. -/
def along (first : Fact) (ps : List NodeId) : Fact :=
  ps.foldl (fun fact p => (g.node? p).elim fact fun node => P.transfer p node fact) first

/-- The last node of a walk has the last word. -/
theorem along_concat {first : Fact} (ps : List NodeId) {p : NodeId} {node : Node}
    (hp : g.node? p = some node) :
    P.along g first (ps ++ [p]) = P.transfer p node (P.along g first ps) := by
  rw [along, List.foldl_concat, hp]
  rfl

end Problem

/-- A family of properties of facts that spread along the flow of a problem. -/
structure Spread (P : Problem Fact) (g : Graph) (A : Type v) where
  /-- The property holds of the fact. -/
  Holds : A → Fact → Prop
  /-- The node produces facts with the property, whatever arrives. -/
  Raises : A → NodeId → Prop
  /-- The node produces a fact with the second property when one with the first arrives. -/
  Passes : A → A → NodeId → Prop
  holds_meet : ∀ {a x y}, Holds a (P.meet x y) ↔ Holds a x ∨ Holds a y
  not_holds_initial : ∀ a, ¬ Holds a (P.initial g)
  holds_transfer : ∀ {a x n node}, g.node? n = some node →
    (Holds a (P.transfer n node x) ↔ Raises a n ∨ ∃ b, Passes b a n ∧ Holds b x)

namespace Spread

variable (S : Spread P g A)

/-- The property is there at a node into which nothing flows. -/
def Starts (a : A) (n : NodeId) : Prop :=
  P.sources g n = [] ∧ S.Holds a (P.boundary g)

/-- The property comes to a node along the flow. -/
inductive Arrives : A → NodeId → Prop
  | start {a : A} {n : NodeId} : S.Starts a n → Arrives a n
  | raise {a : A} {m n : NodeId} : m ∈ P.sources g n → S.Raises a m → Arrives a n
  | pass {a b : A} {m n : NodeId} : m ∈ P.sources g n → S.Passes b a m → Arrives b m → Arrives a n

/-- The property leaves a node along the flow. -/
def Leaves (a : A) (n : NodeId) : Prop :=
  S.Raises a n ∨ ∃ b, S.Passes b a n ∧ S.Arrives b n

variable {S} in
/-- What leaves a node arrives at its targets. -/
theorem Leaves.arrives {a : A} {m n : NodeId} (h : S.Leaves a m) (hm : m ∈ P.sources g n) :
    S.Arrives a n := by
  rcases h with hraise | ⟨b, hpass, hb⟩
  · exact .raise hm hraise
  · exact .pass hm hpass hb

/-! ### Meets -/

/-- A property of a meet is one of its parts, or of the boundary fact if there are none. -/
theorem holds_meetAll {a : A} {facts : List Fact} :
    S.Holds a (P.meetAll g facts) ↔
      facts = [] ∧ S.Holds a (P.boundary g) ∨ ∃ fact ∈ facts, S.Holds a fact := by
  have fold : ∀ (facts : List Fact) (first : Fact), S.Holds a (facts.foldl P.meet first) ↔
      S.Holds a first ∨ ∃ fact ∈ facts, S.Holds a fact := by
    intro facts
    induction facts with
    | nil => simp
    | cons fact facts ih =>
      intro first
      rw [List.foldl_cons, ih, S.holds_meet, or_assoc]
      simp
  cases facts with
  | nil => simp [Problem.meetAll]
  | cons fact facts =>
    have hcons : P.meetAll g (fact :: facts) = facts.foldl P.meet fact := rfl
    rw [hcons, fold]
    simp

/-- A property of what arrives is one of what a source produces, or of the boundary fact. -/
theorem holds_arrivingAt {a : A} {produced : Array Fact} (hsize : produced.size = g.nodeCount)
    (n : NodeId) : S.Holds a (P.arrivingAt g produced n) ↔ S.Starts a n ∨
      ∃ m ∈ P.sources g n, ∃ fact, produced[m.index]? = some fact ∧ S.Holds a fact := by
  obtain ⟨facts, hfacts, hmeet⟩ := Problem.exists_facts_arrivingAt (P := P) hsize n
  have hnil : facts = [] ↔ P.sources g n = [] := by
    rw [← List.map_eq_nil_iff (f := some), ← hfacts, List.map_eq_nil_iff]
  have hmem : ∀ fact, fact ∈ facts ↔ ∃ m ∈ P.sources g n, produced[m.index]? = some fact := by
    intro fact
    rw [← List.mem_map, hfacts]
    simp
  rw [hmeet, S.holds_meetAll, hnil, Starts]
  refine or_congr Iff.rfl ⟨?_, ?_⟩
  · rintro ⟨fact, hfact, ha⟩
    obtain ⟨m, hm, hproduced⟩ := (hmem fact).mp hfact
    exact ⟨m, hm, fact, hproduced, ha⟩
  · rintro ⟨m, hm, fact, hproduced, ha⟩
    exact ⟨fact, (hmem fact).mpr ⟨m, hm, hproduced⟩, ha⟩

/-! ### What holds has arrived -/

/-- Every property of a produced fact leaves its node along the flow. -/
structure Sound (s : Iteration Fact) : Prop where
  produced_size : s.produced.size = g.nodeCount
  leaves : Problem.Produces (fun n fact => ∀ a, S.Holds a fact → S.Leaves a n) s

variable {S} in
/-- In a sound state every property of what arrives at a node has come along the flow. -/
theorem Sound.arrives {s : Iteration Fact} (hs : S.Sound s) {a : A} {n : NodeId}
    (ha : S.Holds a (P.arrivingAt g s.produced n)) : S.Arrives a n := by
  rcases (S.holds_arrivingAt hs.produced_size n).mp ha with hstart | ⟨m, hm, fact, hfact, ha⟩
  · exact .start hstart
  · exact (hs.leaves m fact hfact a ha).arrives hm

variable [DecidableEq Fact]

/-- **Soundness at any time**: the properties of the facts leave their nodes along the flow, however
many steps were taken and whether or not the lists of the graph agree. -/
theorem sound_iterate (limit : Nat) : S.Sound (P.iterate g limit (P.start g)) := by
  have hinherit : ∀ s n node, s.produced.size = g.nodeCount → g.node? n = some node →
      Problem.Produces (fun n fact => ∀ a, S.Holds a fact → S.Leaves a n) s →
      ∀ a, S.Holds a (P.producedAt g s.produced n node) → S.Leaves a n := by
    intro s n node hsize hn hleaves a ha
    have hs : S.Sound s := ⟨hsize, hleaves⟩
    rcases (S.holds_transfer hn).mp ha with hraise | ⟨b, hpass, hb⟩
    · exact Or.inl hraise
    · exact Or.inr ⟨b, hpass, hs.arrives hb⟩
  obtain ⟨hsize, hleaves⟩ := Problem.produces_iterate
    (fun _ a ha => absurd ha (S.not_holds_initial a)) hinherit limit
  exact ⟨hsize, hleaves⟩

/-! ### What arrives holds -/

omit [DecidableEq Fact] in
/-- In a state that solves the equations, what comes to a node along the flow holds there: each
source hands on what it raises and what it passes. -/
theorem holds_of_arrives {s : Iteration Fact} (hs : P.Settled g s) (hq : s.queue = []) {a : A}
    {n : NodeId} (h : S.Arrives a n) : S.Holds a (P.arrivingAt g s.produced n) := by
  have hand : ∀ {a : A} {m n : NodeId}, m ∈ P.sources g n →
      (S.Raises a m ∨ ∃ b, S.Passes b a m ∧ S.Holds b (P.arrivingAt g s.produced m)) →
      S.Holds a (P.arrivingAt g s.produced n) := by
    intro a m n hm hleaves
    obtain ⟨node, hnode⟩ := Graph.exists_node?_of_contains (Graph.contains_of_mem_adjacent hm)
    have hproduced := hs.produced_eq m node hnode (by rw [hq]; exact List.not_mem_nil)
    refine (S.holds_arrivingAt hs.produced_size n).mpr (Or.inr ⟨m, hm, _, hproduced, ?_⟩)
    exact (S.holds_transfer hnode).mpr hleaves
  induction h with
  | start hstart => exact (S.holds_arrivingAt hs.produced_size _).mpr (Or.inl hstart)
  | raise hm hraise => exact hand hm (Or.inl hraise)
  | pass hm hpass _ ih => exact hand hm (Or.inr ⟨_, hpass, ih⟩)

/-- **Solutions are flows**: in an iteration that was not truncated, a node has both its facts, and
the one that arrives has exactly the properties that come to the node along the flow. -/
theorem exists_solution (hc : g.Consistent P.direction) {limit : Nat}
    (ht : (P.solve g limit).truncated = false) {n : NodeId} {node : Node}
    (hn : g.node? n = some node) : ∃ fact,
      (P.iterate g limit (P.start g)).arriving[n.index]? = some fact ∧
      (P.iterate g limit (P.start g)).produced[n.index]? = some (P.transfer n node fact) ∧
      ∀ a, S.Holds a fact ↔ S.Arrives a n := by
  obtain ⟨hs, hq⟩ := Problem.settled_iterate hc ht
  have hnq : n ∉ (P.iterate g limit (P.start g)).queue := by
    rw [hq]
    exact List.not_mem_nil
  refine ⟨_, hs.arriving_eq n (Graph.contains_of_node? hn) hnq, hs.produced_eq n node hn hnq,
    fun a => ⟨fun ha => ?_, fun ha => ?_⟩⟩
  · exact (S.sound_iterate limit).arrives ha
  · exact S.holds_of_arrives hs hq ha

/-! ### Facts along walks -/

omit [DecidableEq Fact] in
/-- **All walks together carry what arrives**: where no property is there at the boundary, a
property comes to a node exactly if it holds at the end of some walk to the node that starts with
the initial fact, at any node. -/
theorem arrives_iff_along (hboundary : ∀ a, ¬ S.Holds a (P.boundary g)) {a : A} {n : NodeId} :
    S.Arrives a n ↔ ∃ ps, ps ≠ [] ∧ (ps ++ [n]).IsChain (fun p q => p ∈ P.sources g q) ∧
      S.Holds a (P.along g (P.initial g) ps) := by
  have hnode : ∀ {m n : NodeId}, m ∈ P.sources g n → ∃ node, g.node? m = some node := fun hm =>
    Graph.exists_node?_of_contains (Graph.contains_of_mem_adjacent hm)
  constructor
  · intro h
    induction h with
    | start hstart => exact absurd hstart.2 (hboundary _)
    | @raise a m n hm hraise =>
      obtain ⟨node, hn⟩ := hnode hm
      refine ⟨[] ++ [m], List.cons_ne_nil m [], List.isChain_pair.mpr hm, ?_⟩
      rw [Problem.along_concat [] hn]
      exact (S.holds_transfer hn).mpr (Or.inl hraise)
    | @pass a b m n hm hpass _ ih =>
      obtain ⟨node, hn⟩ := hnode hm
      obtain ⟨ps, -, hchain, hb⟩ := ih
      refine ⟨ps ++ [m], by simp, (Graph.isChain_concat_concat ps).mpr ⟨hchain, hm⟩, ?_⟩
      rw [Problem.along_concat ps hn]
      exact (S.holds_transfer hn).mpr (Or.inr ⟨b, hpass, hb⟩)
  · rintro ⟨ps, hps, hchain, ha⟩
    induction ps using List.reverseRecOn generalizing a n with
    | nil => exact absurd rfl hps
    | append_singleton front m ih =>
      obtain ⟨hfront, hm⟩ := (Graph.isChain_concat_concat front).mp hchain
      obtain ⟨node, hn⟩ := hnode hm
      rw [Problem.along_concat front hn] at ha
      rcases (S.holds_transfer hn).mp ha with hraise | ⟨b, hpass, hb⟩
      · exact .raise hm hraise
      · -- nothing holds of the initial fact, so what is passed on came along the walk before
        have hne : front ≠ [] := by
          rintro rfl
          exact S.not_holds_initial b hb
        exact .pass hm hpass (ih hne hfront hb)

/-! ### Properties that are passed on unchanged -/

omit [DecidableEq Fact] in
/-- A property that clear nodes pass on unchanged, and others not at all, comes to a node if it
starts there, or over a clear walk from a node that raises it or at which it starts and that is
clear. -/
theorem arrives_iff_clearWalk {Clear : A → NodeId → Prop}
    (hpasses : ∀ a b n, S.Passes b a n ↔ b = a ∧ Clear a n) {a : A} {n : NodeId} :
    S.Arrives a n ↔ S.Starts a n ∨ ∃ m, (S.Raises a m ∨ Clear a m ∧ S.Starts a m) ∧
      Graph.ClearWalk (fun p q => p ∈ P.sources g q) (Clear a) m n := by
  constructor
  · intro h
    induction h with
    | start hstart => exact Or.inl hstart
    | @raise a m n hm hraise =>
      exact Or.inr ⟨m, Or.inl hraise, Graph.clearWalk_iff_last.mpr ⟨m, hm, Or.inl rfl⟩⟩
    | @pass a b m n hm hpass _ ih =>
      obtain ⟨rfl, hclear⟩ := (hpasses a b m).mp hpass
      -- the walk so far, if there is one, goes on through the node that passes the property
      rcases ih with hstart | ⟨p, hp, hwalk⟩
      · exact Or.inr ⟨m, Or.inr ⟨hclear, hstart⟩,
          Graph.clearWalk_iff_last.mpr ⟨m, hm, Or.inl rfl⟩⟩
      · exact Or.inr ⟨p, hp, Graph.clearWalk_iff_last.mpr ⟨m, hm, Or.inr ⟨hclear, hwalk⟩⟩⟩
  · have hpass : ∀ p q, Clear a p → S.Arrives a p → p ∈ P.sources g q → S.Arrives a q :=
      fun p q hclear hp hpq => .pass hpq ((hpasses a a p).mpr ⟨rfl, hclear⟩) hp
    rintro (hstart | ⟨m, hraise | ⟨hclear, hstart⟩, hwalk⟩)
    · exact .start hstart
    · exact hwalk.induction (fun q hq => .raise hq hraise) hpass
    · exact hwalk.induction (fun q hq => hpass m q hclear (.start hstart) hq) hpass

omit [DecidableEq Fact] in
/-- A property that is not there at the boundary comes from a node that raises it. -/
theorem arrives_iff_exists_raises {Clear : A → NodeId → Prop}
    (hpasses : ∀ a b n, S.Passes b a n ↔ b = a ∧ Clear a n) {a : A} {n : NodeId}
    (hboundary : ¬ S.Holds a (P.boundary g)) : S.Arrives a n ↔ ∃ m, S.Raises a m ∧
      Graph.ClearWalk (fun p q => p ∈ P.sources g q) (Clear a) m n := by
  have hstart : ∀ m, ¬ S.Starts a m := fun m h => hboundary h.2
  simp [S.arrives_iff_clearWalk hpasses, hstart]

end Spread

end ProgramGraph.DataFlow
