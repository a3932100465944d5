import Mathlib.Data.Option.Basic
import ProgramGraph.Proofs.Graph.Adjacency

/-!
# Writing properties keeps the shape of a graph

Two graphs have the same shape when they differ in node properties at most. Everything that a
traversal reads apart from properties (identifiers, neighbours, which handles resolve) is then the
same. Writing properties keeps the shape, and changes one name on the nodes it is told to and
nothing else.

`Graph.AgreesOff keys` says that moreover the properties differ under some names at most. Writing
under one of these names keeps it, in one of the graphs or in both.
-/

namespace ProgramGraph

/-- A node without its properties. -/
def Node.bare (node : Node) : Node :=
  { node with properties := ∅ }

namespace Graph

/-- Graphs with the same edges are equal if their handles resolve to the same nodes. -/
theorem ext_node? {g h : Graph} (hedges : h.edges = g.edges) (hnode : ∀ n, h.node? n = g.node? n) :
    h = g := by
  have hnodes : h.nodes = g.nodes := Array.ext_getElem? fun i => hnode ⟨i⟩
  cases g
  cases h
  exact congrArg₂ Graph.mk hnodes hedges

/-! ### Shape -/

/-- The graphs differ in node properties at most. -/
structure SameShape (g h : Graph) : Prop where
  edges_eq : h.edges = g.edges
  bare_eq : ∀ n, (h.node? n).map Node.bare = (g.node? n).map Node.bare

namespace SameShape

variable {g h k : Graph}

protected theorem refl (g : Graph) : SameShape g g :=
  ⟨rfl, fun _ => rfl⟩

protected theorem symm (hgh : SameShape g h) : SameShape h g :=
  ⟨hgh.edges_eq.symm, fun n => (hgh.bare_eq n).symm⟩

protected theorem trans (hgh : SameShape g h) (hhk : SameShape h k) : SameShape g k :=
  ⟨hhk.edges_eq.trans hgh.edges_eq, fun n => (hhk.bare_eq n).trans (hgh.bare_eq n)⟩

/-- What can be read off a node without its properties is the same. -/
theorem map_node?_eq (hs : SameShape g h) {α : Type} {f : Node → α}
    (hf : ∀ node, f node.bare = f node) (n : NodeId) : (h.node? n).map f = (g.node? n).map f := by
  have hcomp : f ∘ Node.bare = f := funext hf
  rw [← hcomp, ← Option.map_map, ← Option.map_map, hs.bare_eq]

theorem contains_eq (hs : SameShape g h) (n : NodeId) : h.contains n = g.contains n := by
  rw [← isSome_node?, ← isSome_node?, ← Option.isSome_map (f := Node.bare), hs.bare_eq,
    Option.isSome_map]

theorem resolve_eq (hs : SameShape g h) (o : Option NodeId) : h.resolve o = g.resolve o := by
  rw [resolve, resolve, funext hs.contains_eq]

theorem nodeCount_eq (hs : SameShape g h) : h.nodeCount = g.nodeCount := by
  have hlt : ∀ i, i < h.nodeCount ↔ i < g.nodeCount := by
    intro i
    rw [← contains_iff (n := ⟨i⟩), ← contains_iff (n := ⟨i⟩), hs.contains_eq]
  have hle := (hlt g.nodeCount).not
  have hge := (hlt h.nodeCount).not
  omega

theorem nodeIds_eq (hs : SameShape g h) : h.nodeIds = g.nodeIds := by
  rw [nodeIds, nodeIds, hs.nodeCount_eq]

theorem edge?_eq (hs : SameShape g h) (e : EdgeId) : h.edge? e = g.edge? e := by
  rw [edge?, edge?, hs.edges_eq]

/-- A handle resolves in both graphs or in neither. -/
theorem node?_cases (hs : SameShape g h) (n : NodeId) :
    (g.node? n = none ∧ h.node? n = none) ∨
      ∃ node node', g.node? n = some node ∧ h.node? n = some node' := by
  have hsome : (h.node? n).isSome = (g.node? n).isSome := by
    rw [isSome_node?, isSome_node?, hs.contains_eq]
  cases hg : g.node? n with
  | none =>
    rw [hg, Option.isSome_none, Option.isSome_eq_false_iff, Option.isNone_iff_eq_none] at hsome
    exact Or.inl ⟨rfl, hsome⟩
  | some node =>
    rw [hg] at hsome
    obtain ⟨node', hnode'⟩ := Option.isSome_iff_exists.mp hsome
    exact Or.inr ⟨node, node', rfl, hnode'⟩

theorem idOf_eq (hs : SameShape g h) (n : NodeId) : h.idOf n = g.idOf n := by
  rw [idOf, idOf, hs.map_node?_eq fun _ => rfl]

theorem outgoing_eq (hs : SameShape g h) (n : NodeId) : h.outgoing n = g.outgoing n := by
  have htarget : h.target? = g.target? := by
    funext e
    simp only [target?, edge?, hs.edges_eq, hs.resolve_eq]
  rw [outgoing, outgoing, listedOutgoing, listedOutgoing, hs.map_node?_eq fun _ => rfl, htarget]

theorem successors_eq (hs : SameShape g h) (n : NodeId) : h.successors n = g.successors n := by
  rw [successors, successors, hs.outgoing_eq]

theorem incoming_eq (hs : SameShape g h) (n : NodeId) : h.incoming n = g.incoming n := by
  have hsource : h.source? = g.source? := by
    funext e
    simp only [source?, edge?, hs.edges_eq, hs.resolve_eq]
  rw [incoming, incoming, listedIncoming, listedIncoming, hs.map_node?_eq fun _ => rfl, hsource]

theorem neighbours_eq (hs : SameShape g h) (d : Direction) : h.neighbours d = g.neighbours d := by
  cases d with
  | forward => exact funext hs.outgoing_eq
  | backward => exact funext hs.incoming_eq

theorem adjacent_eq (hs : SameShape g h) (d : Direction) : h.adjacent d = g.adjacent d := by
  funext n
  rw [adjacent, adjacent, hs.neighbours_eq]

end SameShape

/-! ### Writing a property -/

/-- Setting a property changes the bag of one node. -/
theorem node?_setProperty (g : Graph) (n : NodeId) (key value : String) (m : NodeId) :
    (g.setProperty n key value).node? m =
      if n = m then (g.node? m).map fun node =>
        { node with properties := node.properties.set key value }
      else g.node? m := by
  simp only [setProperty, modifyNode, node?, Array.getElem?_modify]
  cases n
  cases m
  simp

theorem sameShape_setProperty (g : Graph) (n : NodeId) (key value : String) :
    SameShape g (g.setProperty n key value) := by
  refine ⟨rfl, fun m => ?_⟩
  rw [node?_setProperty]
  split
  · rw [Option.map_map]
    rfl
  · rfl

/-- Writing one property of one node leaves the others as they are. -/
theorem property_setProperty (g : Graph) (n : NodeId) (key value : String) (m : NodeId)
    (key' : String) : (g.setProperty n key value).property m key' =
      if n = m ∧ g.contains m = true ∧ key = key' then value else g.property m key' := by
  rw [property, property, node?_setProperty]
  cases hm : g.node? m with
  | none =>
    have hout : g.contains m = false := by rw [← isSome_node?, hm, Option.isSome_none]
    simp [hout]
  | some node =>
    have hin : g.contains m = true := contains_of_node? hm
    by_cases hnm : n = m
    · simp [hnm, hin]
    · simp [hnm]

/-! ### Writing a property of several nodes -/

theorem sameShape_setProperties (g : Graph) (ns : List NodeId) (key value : String) :
    SameShape g (g.setProperties ns key value) := by
  induction ns generalizing g with
  | nil => exact SameShape.refl g
  | cons n ns ih => exact (sameShape_setProperty g n key value).trans (ih _)

/-- The nodes of the list that are in the graph get the value, for this key alone. -/
theorem property_setProperties (g : Graph) (ns : List NodeId) (key value : String) (m : NodeId)
    (key' : String) : (g.setProperties ns key value).property m key' =
      if m ∈ ns ∧ g.contains m = true ∧ key = key' then value else g.property m key' := by
  induction ns generalizing g with
  | nil => simp [setProperties]
  | cons n ns ih =>
    have hcons : g.setProperties (n :: ns) key value =
        (g.setProperty n key value).setProperties ns key value := rfl
    rw [hcons, ih, property_setProperty, (sameShape_setProperty g n key value).contains_eq]
    by_cases hm : m ∈ ns
    · by_cases hrest : g.contains m = true ∧ key = key' <;> simp [hm, hrest]
    · simp [hm, eq_comm (a := n)]

/-- A node is written on once, however often it is listed. -/
theorem node?_setProperties (g : Graph) (ns : List NodeId) (key value : String) (m : NodeId) :
    (g.setProperties ns key value).node? m =
      if m ∈ ns then (g.node? m).map fun node =>
        { node with properties := node.properties.set key value }
      else g.node? m := by
  induction ns generalizing g with
  | nil => rfl
  | cons n ns ih =>
    have hcons : g.setProperties (n :: ns) key value =
        (g.setProperty n key value).setProperties ns key value := rfl
    rw [hcons, ih, node?_setProperty]
    by_cases hnm : n = m
    · subst hnm
      simp only [List.mem_cons_self, if_true, Option.map_map]
      split
      · congr 1
        funext node
        simp
      · rfl
    · simp [hnm, eq_comm (a := m)]

theorem setProperties_append (g : Graph) (ns ms : List NodeId) (key value : String) :
    g.setProperties (ns ++ ms) key value =
      (g.setProperties ns key value).setProperties ms key value :=
  List.foldl_append

/-- Neither the order of the nodes that are written on matters, nor how often they are listed. -/
theorem setProperties_congr (g : Graph) {ns ms : List NodeId} (h : ∀ n, n ∈ ns ↔ n ∈ ms)
    (key value : String) : g.setProperties ns key value = g.setProperties ms key value := by
  have hedges : ∀ ns, (g.setProperties ns key value).edges = g.edges := fun ns =>
    (sameShape_setProperties g ns key value).edges_eq
  refine ext_node? ((hedges ns).trans (hedges ms).symm) fun n => ?_
  simp only [node?_setProperties, h]

/-! ### Graphs that agree off some names -/

/-- The graphs differ at most in the node properties under the given names. -/
structure AgreesOff (keys : List String) (g h : Graph) : Prop extends SameShape g h where
  get?_eq : ∀ n, ∀ key ∉ keys, (h.node? n).map (·.properties.get? key) =
    (g.node? n).map (·.properties.get? key)

namespace AgreesOff

variable {keys keys' : List String} {g h k : Graph}

protected theorem refl (keys : List String) (g : Graph) : AgreesOff keys g g :=
  ⟨SameShape.refl g, fun _ _ _ => rfl⟩

protected theorem symm (hgh : AgreesOff keys g h) : AgreesOff keys h g :=
  ⟨hgh.toSameShape.symm, fun n key hkey => (hgh.get?_eq n key hkey).symm⟩

protected theorem trans (hgh : AgreesOff keys g h) (hhk : AgreesOff keys h k) :
    AgreesOff keys g k :=
  ⟨hgh.toSameShape.trans hhk.toSameShape, fun n key hkey =>
    (hhk.get?_eq n key hkey).trans (hgh.get?_eq n key hkey)⟩

theorem mono (hgh : AgreesOff keys g h) (hkeys : keys ⊆ keys') : AgreesOff keys' g h :=
  ⟨hgh.toSameShape, fun n key hkey => hgh.get?_eq n key fun hmem => hkey (hkeys hmem)⟩

/-- The two nodes of a handle hold the same texts under all other names. -/
theorem get_eq (hgh : AgreesOff keys g h) {n : NodeId} {node node' : Node}
    (hnode : g.node? n = some node) (hnode' : h.node? n = some node') {key : String}
    (hkey : key ∉ keys) : node'.properties.get key = node.properties.get key := by
  have hget := hgh.get?_eq n key hkey
  rw [hnode, hnode', Option.map_some, Option.map_some, Option.some.injEq] at hget
  rw [Bag.get_eq_getD_get?, Bag.get_eq_getD_get?, hget]

/-- Properties under other keys agree. -/
theorem property_eq (hgh : AgreesOff keys g h) (n : NodeId) {key : String} (hkey : key ∉ keys) :
    h.property n key = g.property n key := by
  rw [property, property]
  rcases hgh.node?_cases n with ⟨hnone, hnone'⟩ | ⟨node, node', hnode, hnode'⟩
  · rw [hnone, hnone']
  · rw [hnode, hnode', Option.map_some, Option.map_some, hgh.get_eq hnode hnode' hkey]

/-- Graphs that agree off no name are equal. -/
theorem eq_of_nil (hgh : AgreesOff [] g h) : h = g := by
  have hnode : ∀ n, h.node? n = g.node? n := by
    intro n
    have hbare := hgh.bare_eq n
    rcases hgh.node?_cases n with ⟨hnone, hnone'⟩ | ⟨node, node', hnode, hnode'⟩
    · rw [hnone, hnone']
    · have hbag : node'.properties = node.properties := by
        refine Bag.ext_get? fun key => ?_
        have hget := hgh.get?_eq n key List.not_mem_nil
        rwa [hnode, hnode', Option.map_some, Option.map_some, Option.some.injEq] at hget
      rw [hnode, hnode', Option.map_some, Option.map_some, Option.some.injEq] at hbare
      rw [hnode, hnode', Option.some.injEq]
      cases node
      cases node'
      simp only [Node.bare, Node.mk.injEq] at hbare hbag ⊢
      exact ⟨hbare.1, hbag, hbare.2.2⟩
  exact ext_node? hgh.edges_eq hnode

end AgreesOff

/-- Writing a property changes nothing under other names. -/
theorem agreesOff_setProperty (g : Graph) (n : NodeId) (key value : String) :
    AgreesOff [key] g (g.setProperty n key value) := by
  refine ⟨sameShape_setProperty g n key value, fun m key' hkey' => ?_⟩
  have hne : key ≠ key' := fun heq => hkey' (List.mem_singleton.mpr heq.symm)
  rw [node?_setProperty]
  split
  · rw [Option.map_map]
    congr 1
    funext node
    simp [hne]
  · rfl

/-- Setting properties changes no other key. -/
theorem agreesOff_setProperties (g : Graph) (ns : List NodeId) (key value : String) :
    AgreesOff [key] g (g.setProperties ns key value) := by
  induction ns generalizing g with
  | nil => exact AgreesOff.refl [key] g
  | cons n ns ih => exact (agreesOff_setProperty g n key value).trans (ih _)

/-- The same write in both graphs. -/
theorem AgreesOff.setProperty {keys : List String} {g h : Graph} (hgh : AgreesOff keys g h)
    (n : NodeId) (key value : String) :
    AgreesOff keys (g.setProperty n key value) (h.setProperty n key value) := by
  have hshape := ((sameShape_setProperty g n key value).symm.trans hgh.toSameShape).trans
    (sameShape_setProperty h n key value)
  refine ⟨hshape, fun m key' hkey' => ?_⟩
  have hget := hgh.get?_eq m key' hkey'
  rw [node?_setProperty, node?_setProperty]
  split
  · rcases hgh.node?_cases m with ⟨hnone, hnone'⟩ | ⟨node, node', hnode, hnode'⟩
    · rw [hnone, hnone']
    · rw [hnode, hnode'] at hget ⊢
      simp only [Option.map_some, Option.some.injEq, Bag.get?_set] at hget ⊢
      rw [hget]
  · exact hget

/-- Graphs that agree off some keys still do when the same properties are set. -/
theorem AgreesOff.setProperties {keys : List String} {g h : Graph} (hgh : AgreesOff keys g h)
    (ns : List NodeId) (key value : String) :
    AgreesOff keys (g.setProperties ns key value) (h.setProperties ns key value) := by
  induction ns generalizing g h with
  | nil => exact hgh
  | cons n ns ih => exact ih (hgh.setProperty n key value)

end Graph

end ProgramGraph
