import Mathlib.Data.List.Chain
import Mathlib.Data.List.Induction
import Mathlib.Logic.Relation
import ProgramGraph.Graph.Basic

/-!
# Walks

`Graph.Leads` is one step over an outgoing edge; its closures `Relation.ReflTransGen` and
`Relation.TransGen` are reachability over any number of edges and over at least one.

`Graph.ClearWalk R Clear m n` says that steps of a relation lead from `m` to `n`, at least one of
them, and that every node strictly between is clear. The two ends need not be, and may be the same
node. Both of its laws look at the last step: `clearWalk_iff_last` and the induction along a walk.
The same walk can be read from its end (`clearWalk_flip`).

`Graph.WalkVia R Clear m n ps` is a walk that is given by its nodes, `m` and then those of `ps`, of
which `n` is the last, and all of which are clear. It has as many steps as `ps` has nodes. Its laws
look at the first step, a walk can be taken back step by step (`WalkVia.reverse`), walks can be
joined and cut (`WalkVia.append_iff`), and a walk that passes a node can be cut where it leaves that
node for good (`WalkVia.avoids_or_leaves`).
-/

namespace ProgramGraph.Graph

/-- An outgoing edge leads from the first node to the second. -/
def Leads (g : Graph) (m n : NodeId) : Prop :=
  n ∈ g.successors m

instance (g : Graph) (m n : NodeId) : Decidable (g.Leads m n) :=
  inferInstanceAs (Decidable (n ∈ g.successors m))

theorem leads_iff {g : Graph} {m n : NodeId} : g.Leads m n ↔ ∃ e, (e, n) ∈ g.outgoing m := by
  rw [Leads, successors, List.mem_map]
  constructor
  · rintro ⟨⟨e, _⟩, hout, rfl⟩
    exact ⟨e, hout⟩
  · rintro ⟨e, hout⟩
    exact ⟨(e, n), hout, rfl⟩

/-- From a node of the graph only nodes of the graph can be reached. -/
theorem contains_of_reaches {g : Graph} {m n : NodeId} (hm : g.contains m = true)
    (hreach : Relation.ReflTransGen g.Leads m n) : g.contains n = true := by
  rcases hreach.cases_tail with rfl | ⟨p, -, hleads⟩
  · exact hm
  · obtain ⟨e, hout⟩ := leads_iff.mp hleads
    exact contains_of_mem_outgoing hout

/-! ### Clear walks -/

variable {R : NodeId → NodeId → Prop} {Clear : NodeId → Prop} {m n : NodeId}

variable (R Clear m n) in
/-- A walk of one or more steps all of whose inner nodes are clear. -/
def ClearWalk : Prop :=
  ∃ inner : List NodeId, (m :: (inner ++ [n])).IsChain R ∧ ∀ p ∈ inner, Clear p

/-- A step further along a list of nodes. -/
theorem isChain_concat_concat (front : List NodeId) {p : NodeId} :
    (front ++ [p] ++ [n]).IsChain R ↔ (front ++ [p]).IsChain R ∧ R p n := by
  rw [List.append_assoc, List.singleton_append, List.isChain_append_cons_cons]
  simp

/-- A walk read from its end. -/
theorem clearWalk_flip : ClearWalk (fun p q => R q p) Clear n m ↔ ClearWalk R Clear m n := by
  have hreverse : ∀ inner : List NodeId, (n :: (inner ++ [m])).IsChain (fun p q => R q p) ↔
      (m :: (inner.reverse ++ [n])).IsChain R := by
    intro inner
    rw [← List.isChain_reverse]
    simp
  constructor
  · rintro ⟨inner, hchain, hclear⟩
    exact ⟨inner.reverse, (hreverse inner).mp hchain, fun p hp => hclear p (List.mem_reverse.mp hp)⟩
  · rintro ⟨inner, hchain, hclear⟩
    refine ⟨inner.reverse, (hreverse _).mpr ?_, fun p hp => hclear p (List.mem_reverse.mp hp)⟩
    rwa [List.reverse_reverse]

/-- A walk comes to its end from its start, or from a clear node that it came to before. -/
theorem clearWalk_iff_last :
    ClearWalk R Clear m n ↔ ∃ p, R p n ∧ (p = m ∨ Clear p ∧ ClearWalk R Clear m p) := by
  constructor
  · rintro ⟨inner, hchain, hclear⟩
    rcases List.eq_nil_or_concat inner with rfl | ⟨front, p, rfl⟩
    · exact ⟨m, List.isChain_pair.mp hchain, Or.inl rfl⟩
    · rw [List.concat_eq_append] at hchain hclear
      obtain ⟨hfront, hlast⟩ := (isChain_concat_concat (m :: front)).mp hchain
      refine ⟨p, hlast, Or.inr ⟨hclear p (by simp), front, hfront, ?_⟩⟩
      exact fun q hq => hclear q (List.mem_append_left [p] hq)
  · rintro ⟨p, hp, rfl | ⟨hclear, front, hchain, hfront⟩⟩
    · exact ⟨[], List.isChain_pair.mpr hp, fun q hq => nomatch hq⟩
    · refine ⟨front ++ [p], (isChain_concat_concat (m :: front)).mpr ⟨hchain, hp⟩,
        fun q hq => ?_⟩
      rcases List.mem_append.mp hq with hq | hq
      · exact hfront q hq
      · rw [List.mem_singleton.mp hq]
        exact hclear

/-- Induction along a walk: a property that holds after the first step, and after a further step
from a clear node if it holds there. -/
theorem ClearWalk.induction {Q : NodeId → Prop} (h : ClearWalk R Clear m n)
    (hfirst : ∀ n, R m n → Q n) (hnext : ∀ p n, Clear p → Q p → R p n → Q n) : Q n := by
  obtain ⟨inner, hchain, hclear⟩ := h
  induction inner using List.reverseRecOn generalizing n with
  | nil => exact hfirst n (List.isChain_pair.mp hchain)
  | append_singleton front p ih =>
    obtain ⟨hfront, hlast⟩ := (isChain_concat_concat (m :: front)).mp hchain
    have hp : Q p := ih hfront fun q hq => hclear q (List.mem_append_left [p] hq)
    exact hnext p n (hclear p (by simp)) hp hlast

/-! ### Walks given by their nodes -/

variable (R Clear m n) in
/-- A walk over the nodes of a list, all of whose nodes are clear. -/
def WalkVia (ps : List NodeId) : Prop :=
  (m :: ps).IsChain R ∧ ps.getLastD m = n ∧ ∀ p ∈ m :: ps, Clear p

theorem walkVia_nil : WalkVia R Clear m n [] ↔ m = n ∧ Clear m := by
  simp [WalkVia]

theorem walkVia_cons {p : NodeId} {ps : List NodeId} :
    WalkVia R Clear m n (p :: ps) ↔ Clear m ∧ R m p ∧ WalkVia R Clear p n ps := by
  simp only [WalkVia, List.isChain_cons_cons, List.getLastD_cons, List.forall_mem_cons]
  tauto

namespace WalkVia

variable {ps : List NodeId}

/-- A step further. -/
theorem concat {p : NodeId} (h : WalkVia R Clear m n ps) (hstep : R n p) (hp : Clear p) :
    WalkVia R Clear m p (ps ++ [p]) := by
  induction ps generalizing m with
  | nil =>
    obtain ⟨rfl, hm⟩ := walkVia_nil.mp h
    exact walkVia_cons.mpr ⟨hm, hstep, walkVia_nil.mpr ⟨rfl, hp⟩⟩
  | cons q ps ih =>
    obtain ⟨hm, hfirst, hrest⟩ := walkVia_cons.mp h
    exact walkVia_cons.mpr ⟨hm, hfirst, ih hrest⟩

/-- The last step. -/
theorem of_concat {q : NodeId} (h : WalkVia R Clear m n (ps ++ [q])) :
    q = n ∧ ∃ p, WalkVia R Clear m p ps ∧ R p n := by
  induction ps generalizing m with
  | nil =>
    obtain ⟨hm, hstep, hlast⟩ := walkVia_cons.mp h
    obtain ⟨rfl, -⟩ := walkVia_nil.mp hlast
    exact ⟨rfl, m, walkVia_nil.mpr ⟨rfl, hm⟩, hstep⟩
  | cons p ps ih =>
    obtain ⟨hm, hfirst, hrest⟩ := walkVia_cons.mp h
    obtain ⟨heq, p', hps, hstep⟩ := ih hrest
    exact ⟨heq, p', walkVia_cons.mpr ⟨hm, hfirst, hps⟩, hstep⟩

theorem clear_first (h : WalkVia R Clear m n ps) : Clear m :=
  h.2.2 m List.mem_cons_self

/-- A walk over two lists is one over the first, and one over the second from where that ends. -/
theorem append_iff {qs : List NodeId} :
    WalkVia R Clear m n (ps ++ qs) ↔ ∃ p, WalkVia R Clear m p ps ∧ WalkVia R Clear p n qs := by
  induction ps generalizing m with
  | nil =>
    rw [List.nil_append]
    constructor
    · intro h
      exact ⟨m, walkVia_nil.mpr ⟨rfl, h.clear_first⟩, h⟩
    · rintro ⟨p, hp, h⟩
      obtain ⟨rfl, -⟩ := walkVia_nil.mp hp
      exact h
  | cons q ps ih =>
    simp only [List.cons_append, walkVia_cons, ih]
    constructor
    · rintro ⟨hm, hfirst, p, hps, hqs⟩
      exact ⟨p, ⟨hm, hfirst, hps⟩, hqs⟩
    · rintro ⟨p, ⟨hm, hfirst, hps⟩, hqs⟩
      exact ⟨hm, hfirst, p, hps, hqs⟩

/-- A walk can be cut at each of its nodes. -/
theorem exists_of_mem {p : NodeId} (h : WalkVia R Clear m n ps) (hp : p ∈ m :: ps) :
    ∃ front back, WalkVia R Clear m p front ∧ WalkVia R Clear p n back := by
  rcases List.mem_cons.mp hp with rfl | hp
  · exact ⟨[], ps, walkVia_nil.mpr ⟨rfl, h.clear_first⟩, h⟩
  · obtain ⟨front, back, rfl⟩ := List.append_of_mem hp
    rw [List.append_cons] at h
    obtain ⟨q, hfront, hback⟩ := append_iff.mp h
    obtain ⟨rfl, -⟩ := hfront.of_concat
    exact ⟨front ++ [p], back, hfront, hback⟩

/-- A walk can be taken back, in as many steps. -/
theorem reverse (h : WalkVia R Clear m n ps) :
    ∃ qs, WalkVia (fun p q => R q p) Clear n m qs ∧ qs.length = ps.length := by
  induction ps generalizing m with
  | nil =>
    obtain ⟨rfl, hm⟩ := walkVia_nil.mp h
    exact ⟨[], walkVia_nil.mpr ⟨rfl, hm⟩, rfl⟩
  | cons p ps ih =>
    obtain ⟨hm, hfirst, hrest⟩ := walkVia_cons.mp h
    obtain ⟨qs, hback, hlen⟩ := ih hrest
    refine ⟨qs ++ [m], hback.concat hfirst hm, ?_⟩
    rw [List.length_append, List.length_singleton, List.length_cons, hlen]

/-- A walk stays a walk when more nodes are clear. -/
theorem imp {Clear' : NodeId → Prop} (h : WalkVia R Clear m n ps)
    (hclear : ∀ p, Clear p → Clear' p) : WalkVia R Clear' m n ps :=
  ⟨h.1, h.2.1, fun p hp => hclear p (h.2.2 p hp)⟩

/-- Where all nodes are clear there is a walk to every node that can be reached. -/
theorem exists_iff_reflTransGen (hclear : ∀ p, Clear p) :
    (∃ ps, WalkVia R Clear m n ps) ↔ Relation.ReflTransGen R m n := by
  constructor
  · rintro ⟨ps, h⟩
    induction ps generalizing m with
    | nil =>
      obtain ⟨rfl, -⟩ := walkVia_nil.mp h
      exact .refl
    | cons p ps ih =>
      obtain ⟨-, hfirst, hrest⟩ := walkVia_cons.mp h
      exact .head hfirst (ih hrest)
  · intro h
    induction h with
    | refl => exact ⟨[], walkVia_nil.mpr ⟨rfl, hclear m⟩⟩
    | tail _ hstep ih =>
      obtain ⟨ps, hps⟩ := ih
      exact ⟨_, hps.concat hstep (hclear _)⟩

/-- Where all nodes are clear, a node lies on a walk exactly if it can be reached from the start and
the end can be reached from it. -/
theorem exists_mem_iff {p : NodeId} (hclear : ∀ p, Clear p) :
    (∃ ps, WalkVia R Clear m n ps ∧ p ∈ m :: ps) ↔
      Relation.ReflTransGen R m p ∧ Relation.ReflTransGen R p n := by
  rw [← exists_iff_reflTransGen hclear, ← exists_iff_reflTransGen hclear]
  constructor
  · rintro ⟨ps, hwalk, hp⟩
    obtain ⟨front, back, hfront, hback⟩ := hwalk.exists_of_mem hp
    exact ⟨⟨front, hfront⟩, back, hback⟩
  · rintro ⟨⟨front, hfront⟩, back, hback⟩
    refine ⟨front ++ back, append_iff.mpr ⟨p, hfront, hback⟩, ?_⟩
    have hlast : p ∈ m :: front := hfront.2.1 ▸ List.getLastD_mem_cons
    rw [← List.cons_append]
    exact List.mem_append_left back hlast

/-- A walk does not come to a node at all, or leaves it for the last time and does not come there
again. -/
theorem avoids_or_leaves {x : NodeId} (h : WalkVia R Clear m n ps) (hn : n ≠ x) :
    WalkVia R (fun p => Clear p ∧ p ≠ x) m n ps ∨
      ∃ p qs, R x p ∧ WalkVia R (fun q => Clear q ∧ q ≠ x) p n qs ∧ qs.length < ps.length := by
  induction ps generalizing m with
  | nil =>
    obtain ⟨rfl, hm⟩ := walkVia_nil.mp h
    exact Or.inl (walkVia_nil.mpr ⟨rfl, hm, hn⟩)
  | cons p ps ih =>
    obtain ⟨hm, hfirst, hrest⟩ := walkVia_cons.mp h
    rcases ih hrest with havoids | ⟨q, qs, hleaves, hqs, hlen⟩
    · by_cases hmx : m = x
      · subst hmx
        exact Or.inr ⟨p, ps, hfirst, havoids, Nat.lt_succ_self _⟩
      · exact Or.inl (walkVia_cons.mpr ⟨⟨hm, hmx⟩, hfirst, havoids⟩)
    · exact Or.inr ⟨q, qs, hleaves, hqs, Nat.lt_succ_of_lt hlen⟩

end WalkVia

end ProgramGraph.Graph
