import ProgramGraph.Proofs.Slice.Exactness

/-!
# Backward slices are forward slices seen from the other end

If the lists on the two sides of the edges agree edge by edge, a node lies in the backward slice of
another one exactly if that one lies in its forward slice (`mem_backward_iff_mem_forward`). The two
closures start at different nodes and enter different parts of the graph. What they share is the
walk between the two nodes: taken back, it follows the same edges, and it has as many steps, so that
the filter and the depth treat it the same way.
-/

namespace ProgramGraph.Slice

open ProgramGraph.Graph (WalkVia)

variable {c : SliceConfig} {g : Graph} {d : Direction} {a b : NodeId}

/-- An edge is followed back exactly if it is followed there. Between two nodes there can be edges
of several kinds, but it is one and the same edge that both directions ask for. -/
theorem followed_flip_iff (hg : g.Transposed) :
    Followed c g d.flip b a ↔ Followed c g d a b :=
  exists_congr fun _ => and_congr_left fun _ => hg.mem_neighbours_flip

/-- A node that is reached reaches back, under any filter and any depth. -/
theorem Reaches.flip (hg : g.Transposed) {members : NodeSet} (h : Reaches c g d members a b) :
    Reaches c g d.flip members b a := by
  obtain ⟨ps, hwalk, hallows⟩ := h
  obtain ⟨qs, hback, hlen⟩ := hwalk.reverse
  have hsteps : (fun p q => Followed c g d q p) = Followed c g d.flip := by
    funext p q
    exact propext (followed_flip_iff hg).symm
  rw [hsteps] at hback
  exact ⟨qs, hback, by rwa [hlen]⟩

/-- **Slicing is dual**: under every filter and every depth, one node lies in the backward slice of
another exactly if the other lies in the forward slice of the one. -/
theorem mem_backward_iff_mem_forward (c : SliceConfig) (g : Graph) (a b : NodeId)
    (hg : g.Transposed) (ha : g.contains a = true) (hb : g.contains b = true) :
    a ∈ (backward c g (some b)).nodes ↔ b ∈ (forward c g (some a)).nodes := by
  rw [backward, forward, mem_nodes_directed_iff hb, mem_nodes_directed_iff ha]
  exact ⟨Reaches.flip hg, Reaches.flip hg⟩

/-- A cycle of five nodes with a second edge from the first to the third. Only this one and the last
three edges of the cycle are followed, and two steps deep: the fourth node is within that depth of
the first, over the parallel way, the last is not; and so it is when one looks back. -/
theorem mem_backward_iff_mem_forward_cycle :
    let c : SliceConfig := { maxDepth := some 2, edgeKindKey := some "kind", edgeKinds := ["data"] }
    let g := ([⟨2⟩, ⟨3⟩, ⟨4⟩, ⟨5⟩] : List EdgeId).foldl
      (fun g e => g.setEdgeProperty e "kind" "data")
      ((Graph.addShape ∅ .cycle 5 "n").connect "skip" ⟨0⟩ ⟨2⟩).2
    g.Transposed ∧ g.contains ⟨0⟩ = true ∧ g.contains ⟨3⟩ = true ∧ g.contains ⟨4⟩ = true ∧
      ⟨3⟩ ∈ (forward c g (some ⟨0⟩)).nodes ∧ ⟨0⟩ ∈ (backward c g (some ⟨3⟩)).nodes ∧
      ⟨4⟩ ∉ (forward c g (some ⟨0⟩)).nodes ∧ ⟨0⟩ ∉ (backward c g (some ⟨4⟩)).nodes := by
  intro c g
  have hg : g.Transposed := by decide +kernel
  have hnear : ⟨3⟩ ∈ (forward c g (some ⟨0⟩)).nodes := by decide +kernel
  have hfar : ⟨4⟩ ∉ (forward c g (some ⟨0⟩)).nodes := by decide +kernel
  refine ⟨hg, by decide, by decide, by decide, hnear, ?_, hfar, ?_⟩
  · exact (mem_backward_iff_mem_forward c g ⟨0⟩ ⟨3⟩ hg (by decide) (by decide)).mpr hnear
  · exact fun h => hfar
      ((mem_backward_iff_mem_forward c g ⟨0⟩ ⟨4⟩ hg (by decide) (by decide)).mp h)

end ProgramGraph.Slice
