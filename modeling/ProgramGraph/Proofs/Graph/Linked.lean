import Mathlib.Data.Option.Basic
import ProgramGraph.Proofs.Graph.Properties

/-!
# Linked graphs

A node lists its edges by their handles, and an edge names its ends by theirs; neighbours are found
through both, and nothing in a graph makes the two agree. In a graph that is built with `connect`
they do (`Graph.Linked`): each edge is listed once at each of its ends and nowhere else, and its
ends are there.

* `Linked.count_outgoing`, `Linked.count_incoming`: each edge of a linked graph is found once from
  each of its ends. So the two sides agree, as the laws of slices and data flow ask for
  (`Linked.transposed`, `Linked.consistent`).
* `Linked.addNode`, `Linked.connect`, `Linked.setEdgeProperty`, `SameShape.linked`: what builds a
  graph keeps it linked.
-/

namespace ProgramGraph

/-- The end at which an edge is listed in a direction. -/
def Edge.near (edge : Edge) : Direction → Option NodeId
  | .forward => edge.source
  | .backward => edge.target

namespace Graph

variable {g h : Graph} {d : Direction} {e : EdgeId} {m n : NodeId}

/-! ### Lists and ends -/

/-- The edges listed at a node in a direction. -/
def listed (g : Graph) : Direction → NodeId → List EdgeId
  | .forward => g.listedOutgoing
  | .backward => g.listedIncoming

/-- The end at which an edge is listed in a direction, if the edge resolves and has one. -/
def near? (g : Graph) (d : Direction) (e : EdgeId) : Option NodeId :=
  (g.edge? e).bind (Edge.near · d)

/-- The neighbours are the far ends of the listed edges, as far as these are nodes. -/
theorem neighbours_eq_filterMap (g : Graph) (d : Direction) (n : NodeId) :
    g.neighbours d n = (g.listed d n).filterMap fun e =>
      ((g.near? d.flip e).filter g.contains).map (e, ·) := by
  have hend : ∀ (f : Edge → Option NodeId) (e : EdgeId),
      ((g.edge? e).bind fun edge => g.resolve (f edge)) =
        ((g.edge? e).bind f).filter g.contains := by
    intro f e
    cases g.edge? e <;> rfl
  cases d with
  | forward => simp only [neighbours, outgoing, target?, hend]; rfl
  | backward => simp only [neighbours, incoming, source?, hend]; rfl

/-- How often an edge is found from a node, with a far end, depends on how often it is listed. -/
theorem count_neighbours (g : Graph) (d : Direction) (n m : NodeId) (e : EdgeId) :
    (g.neighbours d n).count (e, m) =
      if g.near? d.flip e = some m ∧ g.contains m = true then (g.listed d n).count e else 0 := by
  have hfound : ∀ e', ((g.near? d.flip e').filter g.contains).map (e', ·) = some (e, m) ↔
      e' = e ∧ g.near? d.flip e = some m ∧ g.contains m = true := by
    intro e'
    rw [Option.map_eq_some_iff]
    constructor
    · rintro ⟨m', hm', heq⟩
      obtain ⟨rfl, rfl⟩ := Prod.mk.inj heq
      exact ⟨rfl, Option.filter_eq_some_iff.mp hm'⟩
    · rintro ⟨rfl, hm⟩
      exact ⟨m, Option.filter_eq_some_iff.mpr hm, rfl⟩
  rw [neighbours_eq_filterMap, List.count_filterMap]
  split
  · rename_i hm
    rw [List.count_eq_countP]
    refine List.countP_congr fun e' _ => ?_
    rw [beq_iff_eq, beq_iff_eq, hfound]
    exact and_iff_left hm
  · rename_i hm
    refine List.countP_eq_zero.mpr fun e' _ => ?_
    rw [beq_iff_eq, hfound]
    exact fun hfar => hm hfar.2

/-! ### Linked graphs -/

/-- Each edge is listed once at each of its ends and nowhere else, and its ends are nodes of the
graph. -/
structure Linked (g : Graph) : Prop where
  present : ∀ d e n, g.near? d e = some n → g.contains n = true
  listed_once : ∀ d e n, (g.listed d n).count e = if g.near? d e = some n then 1 else 0

/-- The edge has the one node as its source and the other as its target. -/
def Joins (g : Graph) (e : EdgeId) (s t : NodeId) : Prop :=
  ∃ edge, g.edge? e = some edge ∧ edge.source = some s ∧ edge.target = some t

instance (g : Graph) (e : EdgeId) (s t : NodeId) : Decidable (g.Joins e s t) :=
  inferInstanceAs (Decidable (∃ edge, g.edge? e = some edge ∧ _))

theorem joins_iff_near? {s t : NodeId} :
    g.Joins e s t ↔ g.near? .forward e = some s ∧ g.near? .backward e = some t := by
  simp only [Joins, near?]
  cases g.edge? e <;> simp [Edge.near]

/-- An edge is listed once at each of its ends, and nowhere else. -/
theorem Linked.count_neighbours (hg : g.Linked) (d : Direction) (n m : NodeId) (e : EdgeId) :
    (g.neighbours d n).count (e, m) =
      if g.near? d e = some n ∧ g.near? d.flip e = some m then 1 else 0 := by
  rw [Graph.count_neighbours, hg.listed_once, ← ite_and]
  refine if_congr ?_ rfl rfl
  constructor
  · rintro ⟨⟨hfar, -⟩, hnear⟩
    exact ⟨hnear, hfar⟩
  · rintro ⟨hnear, hfar⟩
    exact ⟨⟨hfar, hg.present d.flip e m hfar⟩, hnear⟩

/-- **Each edge is found once from its source**, with its target. -/
theorem Linked.count_outgoing (hg : g.Linked) (s t : NodeId) (e : EdgeId) :
    (g.outgoing s).count (e, t) = if g.Joins e s t then 1 else 0 := by
  refine (hg.count_neighbours .forward s t e).trans ?_
  exact if_congr joins_iff_near?.symm rfl rfl

/-- **Each edge is found once from its target**, with its source. -/
theorem Linked.count_incoming (hg : g.Linked) (s t : NodeId) (e : EdgeId) :
    (g.incoming t).count (e, s) = if g.Joins e s t then 1 else 0 := by
  refine (hg.count_neighbours .backward t s e).trans ?_
  exact if_congr (and_comm.trans joins_iff_near?.symm) rfl rfl

/-- The two lists of a linked graph hold the same edges. -/
theorem Linked.transposed (hg : g.Linked) : g.Transposed := by
  intro e s t
  rw [← List.count_pos_iff, ← List.count_pos_iff, hg.count_outgoing, hg.count_incoming]

theorem Linked.consistent (hg : g.Linked) (d : Direction) : g.Consistent d := by
  rw [consistent_iff_adjacent]
  intro m p hp
  obtain ⟨⟨e, p⟩, he, rfl⟩ := List.mem_map.mp hp
  exact List.mem_map_of_mem (f := Prod.snd) (hg.transposed.mem_neighbours_flip.mp he)

/-- A graph stays linked if no list and no end changes and no node is lost. -/
theorem Linked.of_eq (hg : g.Linked) (hlisted : ∀ d n, h.listed d n = g.listed d n)
    (hnear : ∀ d e, h.near? d e = g.near? d e)
    (hcontains : ∀ n, g.contains n = true → h.contains n = true) : h.Linked where
  present d e n hn := hcontains n (hg.present d e n (hnear d e ▸ hn))
  listed_once d e n := by rw [hlisted, hnear, hg.listed_once]

theorem SameShape.listed_eq (hs : SameShape g h) (d : Direction) (n : NodeId) :
    h.listed d n = g.listed d n := by
  cases d with
  | forward => rw [listed, listed, listedOutgoing, listedOutgoing, hs.map_node?_eq fun _ => rfl]
  | backward => rw [listed, listed, listedIncoming, listedIncoming, hs.map_node?_eq fun _ => rfl]

/-- Writing node properties keeps a graph linked. -/
theorem SameShape.linked (hs : SameShape g h) (hg : g.Linked) : h.Linked := by
  refine hg.of_eq hs.listed_eq (fun d e => ?_) fun n hn => ?_
  · rw [near?, near?, hs.edge?_eq]
  · rw [hs.contains_eq, hn]

/-! ### Building -/

theorem linked_empty : (∅ : Graph).Linked := by
  constructor
  · rintro d ⟨i⟩ n hn
    cases hn
  · intro d e n
    cases d <;> rfl

theorem node?_addNode (g : Graph) (id : String) (n : NodeId) :
    (g.addNode id).2.node? n = if n.index = g.nodeCount then some { id } else g.node? n := by
  simp only [addNode, node?, nodeCount, Array.getElem?_push]
  rfl

theorem contains_addNode (g : Graph) (id : String) (n : NodeId) :
    (g.addNode id).2.contains n = true ↔ n = (g.addNode id).1 ∨ g.contains n = true := by
  cases n
  simp only [contains_iff, Graph.addNode, nodeCount, Array.size_push, NodeId.mk.injEq]
  omega

theorem Linked.addNode (hg : g.Linked) (id : String) : (g.addNode id).2.Linked := by
  refine hg.of_eq (fun d n => ?_) (fun d e => rfl) fun n hn => ?_
  · -- the new node lists nothing, and neither did the handle that now resolves to it
    have hnode := node?_addNode g id n
    split at hnode
    · rename_i hnew
      have hnone : g.node? n = none := by simp [node?, hnew, nodeCount]
      cases d <;> simp [listed, listedOutgoing, listedIncoming, hnode, hnone]
    · cases d <;> simp only [listed, listedOutgoing, listedIncoming, hnode]
  · exact (contains_addNode g id n).mpr (Or.inr hn)

theorem Linked.setEdgeProperty (hg : g.Linked) (e : EdgeId) (key value : String) :
    (g.setEdgeProperty e key value).Linked := by
  refine hg.of_eq (fun d n => ?_) (fun d e' => ?_) fun n hn => hn
  · cases d <;> rfl
  · simp only [near?, edge?, Graph.setEdgeProperty, modifyEdge, Array.getElem?_modify]
    split
    · rw [Option.bind_map]
      cases d <;> rfl
    · rfl

/-! ### Connecting -/

theorem node?_modifyNode (g : Graph) (n : NodeId) (f : Node → Node) (m : NodeId) :
    (g.modifyNode n f).node? m = if n = m then (g.node? m).map f else g.node? m := by
  simp only [modifyNode, node?, Array.getElem?_modify]
  cases n
  cases m
  simp

/-- The end of a new edge at which it is listed in a direction. -/
def endOf (s t : NodeId) : Direction → NodeId
  | .forward => s
  | .backward => t

/-- A new edge has the ends it was given, and the other edges keep theirs. -/
theorem near?_connect (g : Graph) (id : String) (s t : NodeId) (d : Direction) (e : EdgeId) :
    (g.connect id s t).2.near? d e =
      if e.index = g.edgeCount then some (endOf s t d) else g.near? d e := by
  have hedge : (g.connect id s t).2.edge? e =
      if e.index = g.edgeCount then some ⟨id, some s, some t, ∅⟩ else g.edge? e :=
    Array.getElem?_push
  rw [near?, hedge]
  split
  · cases d <;> rfl
  · rfl

theorem contains_connect (g : Graph) (id : String) (s t n : NodeId) :
    (g.connect id s t).2.contains n = g.contains n := by
  rw [Bool.eq_iff_iff, contains_iff, contains_iff]
  simp [connect, addIncoming, addOutgoing, addEdge, modifyNode, nodeCount]

/-- A new edge is appended to the lists of its two ends, and no other node changes. -/
theorem node?_connect (g : Graph) (id : String) (s t n : NodeId) :
    (g.connect id s t).2.node? n = (g.node? n).map fun node =>
      { node with
        outgoing := if s = n then node.outgoing.push ⟨g.edgeCount⟩ else node.outgoing
        incoming := if t = n then node.incoming.push ⟨g.edgeCount⟩ else node.incoming } := by
  simp only [connect, addIncoming, addOutgoing, node?_modifyNode]
  change (if t = n then (if s = n then (g.node? n).map _ else g.node? n).map _
    else if s = n then (g.node? n).map _ else g.node? n) = _
  cases g.node? n with
  | none => simp
  | some node => by_cases hs : s = n <;> by_cases ht : t = n <;> simp [hs, ht, addEdge]

/-- The ends of a new edge list it after the others, and no other node does. -/
theorem listed_connect (g : Graph) (id : String) {s t : NodeId} (hs : g.contains s = true)
    (ht : g.contains t = true) (d : Direction) (n : NodeId) :
    (g.connect id s t).2.listed d n =
      g.listed d n ++ if endOf s t d = n then [⟨g.edgeCount⟩] else [] := by
  cases hnode : g.node? n with
  | none =>
    have hne : endOf s t d ≠ n := by
      rintro rfl
      cases d with
      | forward => exact not_contains_of_node? hnode hs
      | backward => exact not_contains_of_node? hnode ht
    cases d <;>
      simp [listed, listedOutgoing, listedIncoming, node?_connect, hnode, hne]
  | some node =>
    cases d with
    | forward =>
      simp only [listed, listedOutgoing, node?_connect, hnode, Option.map_some, Option.getD_some,
        endOf]
      by_cases hn : s = n <;> simp [hn]
    | backward =>
      simp only [listed, listedIncoming, node?_connect, hnode, Option.map_some, Option.getD_some,
        endOf]
      by_cases hn : t = n <;> simp [hn]

/-- An edge between two nodes is entered at both of its ends. -/
theorem Linked.connect (hg : g.Linked) (id : String) {s t : NodeId} (hs : g.contains s = true)
    (ht : g.contains t = true) : (g.connect id s t).2.Linked where
  present d e n hn := by
    rw [contains_connect]
    rw [near?_connect] at hn
    split at hn
    · obtain rfl := Option.some.inj hn
      cases d with
      | forward => exact hs
      | backward => exact ht
    · exact hg.present d e n hn
  listed_once d e n := by
    rw [listed_connect g id hs ht, near?_connect, List.count_append, hg.listed_once]
    by_cases he : e.index = g.edgeCount
    · -- the handle of the new edge did not resolve before
      obtain rfl : e = ⟨g.edgeCount⟩ := by
        cases e
        exact congrArg EdgeId.mk he
      have hnone : g.near? d ⟨g.edgeCount⟩ = none := by simp [near?, edge?, edgeCount]
      rw [hnone, if_pos rfl]
      by_cases hn : endOf s t d = n <;> simp [hn]
    · have hne : (⟨g.edgeCount⟩ : EdgeId) ≠ e := fun heq => he (heq ▸ rfl)
      rw [if_neg he, Nat.add_eq_left]
      by_cases hn : endOf s t d = n <;> simp [hn, hne]

end Graph

end ProgramGraph
