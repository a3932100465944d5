import ProgramGraph.Graph.Direction

/-!
# Adjacent nodes

Adjacent nodes are nodes of the graph, in both directions. `Graph.Consistent` says that the lists on
the two sides of the edges agree as far as a flow in a direction needs it, and `Graph.Transposed`
that they agree edge by edge. Both can be decided, since only the nodes of the graph have adjacent
nodes.
-/

namespace ProgramGraph

namespace Graph

/-- Wherever facts that flow in a direction arrive from, there they are also sent from: the lists on
the two sides of an edge agree as far as the flow needs it. -/
def Consistent (g : Graph) : Direction → Prop
  | .forward => ∀ m p, p ∈ g.predecessors m → m ∈ g.successors p
  | .backward => ∀ m s, s ∈ g.successors m → m ∈ g.predecessors s

/-- Lists agree if whoever is listed on one side lists back on the other. -/
theorem consistent_iff_adjacent {g : Graph} {d : Direction} :
    g.Consistent d ↔ ∀ m p, p ∈ g.adjacent d.flip m → m ∈ g.adjacent d p := by
  cases d <;> exact Iff.rfl

theorem isSome_node? (g : Graph) (n : NodeId) : (g.node? n).isSome = g.contains n := by
  rw [Bool.eq_iff_iff, contains_iff]
  simp [node?, nodeCount]

/-- What resolves to a node is in the graph, -/
theorem contains_of_node? {g : Graph} {n : NodeId} {node : Node} (h : g.node? n = some node) :
    g.contains n = true := by
  rw [← isSome_node?, h, Option.isSome_some]

theorem not_contains_of_node? {g : Graph} {n : NodeId} (h : g.node? n = none) :
    ¬ g.contains n = true := by
  simp [← isSome_node?, h]

/-- and the other way round. -/
theorem exists_node?_of_contains {g : Graph} {n : NodeId} (h : g.contains n = true) :
    ∃ node, g.node? n = some node := by
  rw [← isSome_node?] at h
  exact Option.isSome_iff_exists.mp h

/-- The nodes of a graph are those that handles resolve to. -/
theorem mem_nodes_iff {g : Graph} {node : Node} :
    node ∈ g.nodes.toList ↔ ∃ n, g.node? n = some node := by
  rw [List.mem_iff_getElem?]
  constructor
  · rintro ⟨i, hi⟩
    exact ⟨⟨i⟩, by rwa [Array.getElem?_toList] at hi⟩
  · rintro ⟨n, hn⟩
    exact ⟨n.index, by rwa [Array.getElem?_toList]⟩

/-- Only nodes of the graph are adjacent. -/
theorem contains_of_mem_adjacent {g : Graph} {d : Direction} {n m : NodeId}
    (h : m ∈ g.adjacent d n) : g.contains m = true := by
  obtain ⟨⟨e, t⟩, ht, rfl⟩ := List.mem_map.mp h
  cases d with
  | forward => exact contains_of_mem_outgoing ht
  | backward => exact contains_of_mem_incoming ht

/-- Only a node of the graph has adjacent nodes. -/
theorem contains_of_adjacent_mem {g : Graph} {d : Direction} {n m : NodeId}
    (h : m ∈ g.adjacent d n) : g.contains n = true := by
  cases hn : g.node? n with
  | some node => exact contains_of_node? hn
  | none =>
    cases d <;>
      simp [adjacent, neighbours, outgoing, incoming, listedOutgoing, listedIncoming, hn] at h

/-- It is enough to compare the lists of the nodes of the graph. -/
theorem consistent_iff_nodeIds {g : Graph} {d : Direction} :
    g.Consistent d ↔ ∀ m ∈ g.nodeIds, ∀ p ∈ g.adjacent d.flip m, m ∈ g.adjacent d p := by
  rw [consistent_iff_adjacent]
  constructor
  · intro h m _ p hp
    exact h m p hp
  · intro h m p hp
    exact h m (mem_nodeIds.mpr (contains_of_adjacent_mem hp)) p hp

instance (g : Graph) (d : Direction) : Decidable (g.Consistent d) :=
  decidable_of_iff _ consistent_iff_nodeIds.symm

/-! ### Lists that agree edge by edge -/

/-- An edge is listed as leaving one node for another exactly if it is listed as entering that other
node from the one. -/
def Transposed (g : Graph) : Prop :=
  ∀ e s t, (e, t) ∈ g.outgoing s ↔ (e, s) ∈ g.incoming t

/-- In a transposed graph each edge is listed at both ends or at none. -/
theorem Transposed.mem_neighbours_flip {g : Graph} (hg : g.Transposed) {d : Direction} {e : EdgeId}
    {m n : NodeId} : (e, m) ∈ g.neighbours d.flip n ↔ (e, n) ∈ g.neighbours d m := by
  cases d with
  | forward => exact (hg e m n).symm
  | backward => exact hg e n m

/-- It is enough to compare the lists of the nodes of the graph. -/
theorem transposed_iff_nodeIds {g : Graph} :
    g.Transposed ↔ (∀ s ∈ g.nodeIds, ∀ entry ∈ g.outgoing s, (entry.1, s) ∈ g.incoming entry.2) ∧
      ∀ t ∈ g.nodeIds, ∀ entry ∈ g.incoming t, (entry.1, t) ∈ g.outgoing entry.2 := by
  have hnode : ∀ {d : Direction} {e : EdgeId} {m n : NodeId}, (e, n) ∈ g.neighbours d m →
      m ∈ g.nodeIds := fun h =>
    mem_nodeIds.mpr (contains_of_adjacent_mem (List.mem_map_of_mem (f := Prod.snd) h))
  constructor
  · intro h
    exact ⟨fun s _ entry hentry => (h entry.1 s entry.2).mp hentry,
      fun t _ entry hentry => (h entry.1 entry.2 t).mpr hentry⟩
  · rintro ⟨hout, hin⟩ e s t
    exact ⟨fun h => hout s (hnode (d := .forward) h) (e, t) h,
      fun h => hin t (hnode (d := .backward) h) (e, s) h⟩

instance (g : Graph) : Decidable g.Transposed :=
  decidable_of_iff _ transposed_iff_nodeIds.symm

end Graph

end ProgramGraph
