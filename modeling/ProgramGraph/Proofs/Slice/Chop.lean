import Mathlib.Order.Antisymmetrization
import ProgramGraph.Proofs.Slice.Duality

/-!
# Chops are what lies on walks

The chop of a source and a target is the part that the forward slice of the source and the backward
slice of the target have in common. The two are computed over different lists. If these agree edge
by edge, and without a depth, a node in both lies on a walk: one half leads to it from the source,
and the other, taken back, from it to the target (`mem_chop_iff_on_walk`).

With one criterion for source and target the two halves make a cycle, and the chop is the strongly
connected component of the criterion: its class under reachability there and back, which is
`AntisymmRel` of reachability.
-/

namespace ProgramGraph.Slice

open ProgramGraph.Graph (WalkVia)

variable {c : SliceConfig} {g : Graph} {d : Direction} {s t n : NodeId}

theorem Result.isEmpty_eq_false_iff {r : Result} : r.isEmpty = false ↔ ∃ n, n ∈ r.nodes := by
  rw [Result.isEmpty, ← Bool.not_eq_true, Std.ExtTreeSet.isEmpty_iff,
    Std.ExtTreeSet.eq_empty_iff_forall_not_mem, not_forall_not]

/-- What can be reached back is what this can be reached from. -/
theorem reflTransGen_followed_flip_iff (hg : g.Transposed) :
    Relation.ReflTransGen (Followed c g d.flip) t n ↔
      Relation.ReflTransGen (Followed c g d) n t := by
  have hswap : Followed c g d.flip = Function.swap (Followed c g d) := by
    funext p q
    exact propext (followed_flip_iff hg)
  rw [hswap, Relation.reflTransGen_swap]

/-- A chop is what the source leads to and what leads to the target. -/
theorem mem_nodes_chop_iff (hg : g.Transposed) (hdepth : c.maxDepth = none)
    (hs : g.contains s = true) (ht : g.contains t = true) :
    n ∈ (chop c g (some s) (some t)).nodes ↔
      Relation.ReflTransGen (Followed c g .forward) s n ∧
        Relation.ReflTransGen (Followed c g .forward) n t := by
  have hnodes : (chop c g (some s) (some t)).nodes =
      (directed c g .forward (some s)).nodes ∩ (directed c g .backward (some t)).nodes := rfl
  rw [hnodes, Std.ExtTreeSet.mem_inter_iff, mem_nodes_directed_iff_reflTransGen hs hdepth,
    mem_nodes_directed_iff_reflTransGen ht hdepth]
  exact and_congr_right fun _ => reflTransGen_followed_flip_iff (d := .forward) hg

/-- **A chop is the set of nodes on walks** from the source to the target over followed edges. It is
not empty exactly if the target is in the forward slice of the source, and then both ends are in it.
The chop of one criterion is its strongly connected component. -/
theorem mem_chop_iff_on_walk (c : SliceConfig) (g : Graph) (s t : NodeId) (hg : g.Transposed)
    (hdepth : c.maxDepth = none) (hs : g.contains s = true) (ht : g.contains t = true) :
    let r := chop c g (some s) (some t)
    (∀ n, n ∈ r.nodes ↔
      ∃ ps, WalkVia (Followed c g .forward) (fun _ => True) s t ps ∧ n ∈ s :: ps) ∧
    (r.isEmpty = false ↔ t ∈ (forward c g (some s)).nodes) ∧
    (t ∈ (forward c g (some s)).nodes → s ∈ r.nodes ∧ t ∈ r.nodes) ∧
    ∀ n, n ∈ (slice c g (some s) .chop).nodes ↔
      AntisymmRel (Relation.ReflTransGen (Followed c g .forward)) s n := by
  intro r
  have hchop : ∀ n, n ∈ r.nodes ↔ Relation.ReflTransGen (Followed c g .forward) s n ∧
      Relation.ReflTransGen (Followed c g .forward) n t :=
    fun n => mem_nodes_chop_iff hg hdepth hs ht
  have hslice : t ∈ (forward c g (some s)).nodes ↔
      Relation.ReflTransGen (Followed c g .forward) s t :=
    mem_nodes_directed_iff_reflTransGen hs hdepth
  have hends : t ∈ (forward c g (some s)).nodes → s ∈ r.nodes ∧ t ∈ r.nodes := fun h =>
    ⟨(hchop s).mpr ⟨.refl, hslice.mp h⟩, (hchop t).mpr ⟨hslice.mp h, .refl⟩⟩
  refine ⟨fun n => ?_, ?_, hends, fun n => mem_nodes_chop_iff hg hdepth hs hs⟩
  · rw [hchop, WalkVia.exists_mem_iff fun _ => trivial]
  · rw [Result.isEmpty_eq_false_iff]
    constructor
    · rintro ⟨n, hn⟩
      obtain ⟨hto, hfrom⟩ := (hchop n).mp hn
      exact hslice.mpr (hto.trans hfrom)
    · intro h
      exact ⟨s, (hends h).1⟩

/-- A cycle of three nodes, a fourth node that the last of them leads to, and an edge back from
there to the first that is not followed. The second node lies on a walk from the first to the
fourth; the fourth leads nowhere; and the first three nodes are a component without the fourth. -/
theorem mem_chop_iff_on_walk_cycle :
    let c : SliceConfig := { edgeKindKey := some "kind", edgeKinds := ["data"] }
    let tail := (((Graph.addShape ∅ .cycle 3 "n").addNode "m").2.connect "out" ⟨2⟩ ⟨3⟩).2
    let g := ([⟨0⟩, ⟨1⟩, ⟨2⟩, ⟨3⟩] : List EdgeId).foldl
      (fun g e => g.setEdgeProperty e "kind" "data") (tail.connect "back" ⟨3⟩ ⟨0⟩).2
    g.Transposed ∧ c.maxDepth = none ∧ g.contains ⟨0⟩ = true ∧ g.contains ⟨3⟩ = true ∧
      ⟨1⟩ ∈ (chop c g (some ⟨0⟩) (some ⟨3⟩)).nodes ∧
      (chop c g (some ⟨3⟩) (some ⟨0⟩)).isEmpty = true ∧
      AntisymmRel (Relation.ReflTransGen (Followed c g .forward)) ⟨0⟩ ⟨2⟩ ∧
      ¬ AntisymmRel (Relation.ReflTransGen (Followed c g .forward)) ⟨0⟩ ⟨3⟩ := by
  intro c tail g
  have hg : g.Transposed := by decide +kernel
  have hnowhere : ⟨0⟩ ∉ (forward c g (some ⟨3⟩)).nodes := by decide +kernel
  have hwalk : WalkVia (Followed c g .forward) (fun _ => True) ⟨0⟩ ⟨3⟩ [⟨1⟩, ⟨2⟩, ⟨3⟩] := by
    simp only [Graph.walkVia_cons, Graph.walkVia_nil]
    decide +kernel
  obtain ⟨honwalk, -, -, hcomponent⟩ :=
    mem_chop_iff_on_walk c g ⟨0⟩ ⟨3⟩ hg rfl (by decide) (by decide)
  obtain ⟨-, hnonempty, -⟩ := mem_chop_iff_on_walk c g ⟨3⟩ ⟨0⟩ hg rfl (by decide) (by decide)
  refine ⟨hg, rfl, by decide, by decide, (honwalk _).mpr ⟨_, hwalk, by decide⟩, ?_,
    (hcomponent _).mp (by decide +kernel), fun h => ?_⟩
  · exact Bool.not_eq_false _ ▸ mt hnonempty.mp hnowhere
  · have houtside : ⟨3⟩ ∉ (slice c g (some ⟨0⟩) .chop).nodes := by decide +kernel
    exact houtside ((hcomponent _).mpr h)

end ProgramGraph.Slice
