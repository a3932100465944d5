import Mathlib.Data.List.Perm.Subperm
import ProgramGraph.Execution.Walk
import ProgramGraph.Proofs.Graph.Adjacency
import ProgramGraph.Proofs.Graph.Walk

/-!
# Walks that carry a state

Hooks without a memory decide for each branch which state goes on along it, if any (`passOn`). A
walk from the entry over outgoing edges is feasible when every branch on it is taken; the state that
comes to its end is then determined (`Feasible`). A walk is given by its steps, each an edge and the
node it leads to.

The branches that an execution follows from a node are the steps by which a feasible walk to the
node can go on (`mem_branches_iff`). A walk that repeats no node has fewer steps than the graph has
nodes (`Feasible.length_lt`).
-/

namespace ProgramGraph.Execution

open Relation (ReflTransGen TransGen)

universe u

variable {State : Type u}

/-- The state that goes on along an edge from a node that was entered with a state, if the branch is
taken. -/
def passOn (h : Hooks State Unit) (g : Graph) (n : NodeId) (e : EdgeId) (s : State) :
    Option State :=
  (g.node? n).bind fun node => (g.edge? e).bind fun edge =>
    (h.fork edge (h.transfer node s ()).1 ()).1

/-- The nodes of a walk, the entry first. -/
def walkNodes (entry : NodeId) (steps : List (EdgeId × NodeId)) : List NodeId :=
  entry :: steps.map Prod.snd

/-- A walk from the entry leads to a node, and carries the initial state there as the given one. -/
inductive Feasible (h : Hooks State Unit) (g : Graph) (entry : NodeId) (initial : State) :
    List (EdgeId × NodeId) → NodeId → State → Prop
  | start : Feasible h g entry initial [] entry initial
  | step {steps n s e t s'} : Feasible h g entry initial steps n s → (e, t) ∈ g.outgoing n →
      passOn h g n e s = some s' → Feasible h g entry initial (steps ++ [(e, t)]) t s'

variable {h : Hooks State Unit} {g : Graph} {entry n m : NodeId} {initial s : State}
  {steps : List (EdgeId × NodeId)}

/-! ### The nodes of a walk -/

theorem walkNodes_append (steps' : List (EdgeId × NodeId)) :
    walkNodes entry (steps ++ steps') = walkNodes entry steps ++ steps'.map Prod.snd := by
  simp [walkNodes]

/-- The nodes that a walk has passed before its last one. -/
theorem dropLast_walkNodes_concat (e : EdgeId) :
    (walkNodes entry (steps ++ [(e, n)])).dropLast = walkNodes entry steps := by
  rw [walkNodes_append]
  exact List.dropLast_concat

namespace Feasible

/-- A walk ends at its last node. -/
theorem walkNodes_eq (hwalk : Feasible h g entry initial steps n s) :
    walkNodes entry steps = (walkNodes entry steps).dropLast ++ [n] := by
  cases hwalk with
  | start => rfl
  | step =>
    rw [dropLast_walkNodes_concat, walkNodes_append]
    rfl

/-- A walk ends in one of its nodes. -/
theorem mem_walkNodes (hwalk : Feasible h g entry initial steps n s) :
    n ∈ walkNodes entry steps := by
  rw [hwalk.walkNodes_eq]
  simp

/-- Each node of a walk is reached from the entry, and leads on to the end. -/
theorem reaches (hwalk : Feasible h g entry initial steps n s) (hm : m ∈ walkNodes entry steps) :
    ReflTransGen g.Leads entry m ∧ ReflTransGen g.Leads m n := by
  induction hwalk generalizing m with
  | start =>
    rw [List.mem_singleton.mp hm]
    exact ⟨.refl, .refl⟩
  | @step steps n s e t s' hwalk hout _ ih =>
    have hleads : g.Leads n t := Graph.leads_iff.mpr ⟨e, hout⟩
    rw [walkNodes_append, List.mem_append] at hm
    rcases hm with hm | hm
    · exact ⟨(ih hm).1, (ih hm).2.tail hleads⟩
    · rw [List.mem_singleton.mp hm]
      exact ⟨(ih hwalk.mem_walkNodes).1.tail hleads, .refl⟩

/-- All nodes of a walk are in the graph if the entry is. -/
theorem contains (hwalk : Feasible h g entry initial steps n s)
    (hentry : g.contains entry = true) (hm : m ∈ walkNodes entry steps) : g.contains m = true :=
  Graph.contains_of_reaches hentry (hwalk.reaches hm).1

theorem contains_end (hwalk : Feasible h g entry initial steps n s)
    (hentry : g.contains entry = true) : g.contains n = true :=
  hwalk.contains hentry hwalk.mem_walkNodes

/-- A walk that repeats no node has fewer steps than the graph has nodes. -/
theorem length_lt (hwalk : Feasible h g entry initial steps n s)
    (hentry : g.contains entry = true) (hnodup : (walkNodes entry steps).Nodup) :
    steps.length < g.nodeCount := by
  have hsub : walkNodes entry steps ⊆ g.nodeIds := fun m hm =>
    Graph.mem_nodeIds.mpr (hwalk.contains hentry hm)
  have hlen := (hnodup.subperm hsub).length_le
  simp only [walkNodes, Graph.nodeIds, List.length_cons, List.length_map, List.length_range] at hlen
  omega

end Feasible

/-! ### Branches -/

/-- What the hooks let through of the edges of a node. -/
theorem mem_forkAll_iff {out : List (EdgeId × NodeId)} {b : Branch State} :
    b ∈ (forkAll h g s out ()).1 ↔ (b.edge, b.target) ∈ out ∧
      ∃ edge, g.edge? b.edge = some edge ∧ (h.fork edge s ()).1 = some b.state := by
  induction out with
  | nil => simp [forkAll]
  | cons entry out ih =>
    obtain ⟨e, t⟩ := entry
    rw [List.mem_cons, forkAll]
    cases hedge : g.edge? e with
    | none =>
      rw [ih]
      refine and_congr_left fun ⟨edge, hb, _⟩ => (or_iff_right fun heq => ?_).symm
      rw [(Prod.mk.inj heq).1, hedge] at hb
      cases hb
    | some edge =>
      rcases hfork : h.fork edge s () with ⟨_ | s', ⟨⟩⟩
      · -- the first edge is pruned
        simp only [hfork]
        rw [ih]
        refine and_congr_left fun ⟨edge', hb, hstate⟩ => (or_iff_right fun heq => ?_).symm
        rw [(Prod.mk.inj heq).1, hedge] at hb
        cases hb
        rw [hfork] at hstate
        cases hstate
      · have hfirst : b = ⟨e, t, s'⟩ ↔ (b.edge, b.target) = (e, t) ∧
            ∃ edge, g.edge? b.edge = some edge ∧ (h.fork edge s ()).1 = some b.state := by
          constructor
          · rintro rfl
            exact ⟨rfl, edge, hedge, by rw [hfork]⟩
          · rintro ⟨heq, edge', hb, hstate⟩
            obtain ⟨he, ht⟩ := Prod.mk.inj heq
            rw [he, hedge] at hb
            cases hb
            rw [hfork] at hstate
            cases b
            simp_all
        simp only [hfork, List.mem_cons]
        rw [ih, hfirst, or_and_right]

/-- The branches that are followed from a node are those on which a state goes on. -/
theorem mem_branches_iff {node : Node} {w : Walk State Unit} (hnode : g.node? n = some node)
    {b : Branch State} : b ∈ (process h g n node s w).1 ↔
      (b.edge, b.target) ∈ g.outgoing n ∧ passOn h g n b.edge s = some b.state := by
  have hpass : passOn h g n b.edge s = some b.state ↔ ∃ edge, g.edge? b.edge = some edge ∧
      (h.fork edge (h.transfer node s ()).1 ()).1 = some b.state := by
    rw [passOn, hnode, Option.bind_some, Option.bind_eq_some_iff]
  rw [hpass]
  exact mem_forkAll_iff

end ProgramGraph.Execution
