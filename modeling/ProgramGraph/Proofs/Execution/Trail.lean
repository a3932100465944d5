import Mathlib.Data.List.Nodup
import ProgramGraph.Proofs.Execution.Coverage

/-!
# Where the search stands

`Trail g e path via n` says where the search stands when it is to enter the node `n` over the edge
`via`: the nodes of the path lead there from the entry `e`, one after the other and none of them
twice. Every node of the path can then be reached from the entry and leads on to `n`
(`Trail.reaches`), and the nodes of the path are those of a walk, which has as many steps
(`Trail.exists_walk`).

The branches of a node that is processed continue its trail (`Trail.branch`), with any hooks, so
that a trail is an invariant for all inductions over `Descends`.
-/

namespace ProgramGraph.Execution

open ProgramGraph.Graph (WalkVia)
open Relation (ReflTransGen)

universe u v

/-- The path leads from the entry to a node, over the edge if there is one. -/
inductive Trail (g : Graph) (e : NodeId) : NodeSet → Option EdgeId → NodeId → Prop
  | start : Trail g e ∅ none e
  | step {path via p b n} : Trail g e path via p → p ∉ path → (b, n) ∈ g.outgoing p →
      Trail g e (path.insert p) (some b) n

namespace Trail

variable {g : Graph} {e n : NodeId} {path : NodeSet} {via : Option EdgeId}

/-- The nodes of the path are reached from the entry, and lead to where the search stands. -/
theorem reaches (ht : Trail g e path via n) : ReflTransGen g.Leads e n ∧
    ∀ m ∈ path, ReflTransGen g.Leads e m ∧ ReflTransGen g.Leads m n := by
  induction ht with
  | start => exact ⟨.refl, fun m hm => absurd hm Std.ExtTreeSet.not_mem_empty⟩
  | step _ _ hout ih =>
    have hleads := Graph.leads_iff.mpr ⟨_, hout⟩
    refine ⟨ih.1.tail hleads, fun m hm => ?_⟩
    rcases mem_insert_path.mp hm with rfl | hm
    · exact ⟨ih.1, .single hleads⟩
    · exact ⟨(ih.2 m hm).1, (ih.2 m hm).2.tail hleads⟩

/-- A walk passes the nodes of the path, and comes in as many steps to where the search stands. It
repeats no node if the search does not stand before a node of the path. -/
theorem exists_walk (ht : Trail g e path via n) : ∃ ps,
    WalkVia g.Leads (fun _ => True) e n ps ∧ ps.length = path.size ∧
      (n ∉ path → (e :: ps).Nodup ∧ ∀ m, m ∈ e :: ps ↔ m ∈ path.insert n) := by
  induction ht with
  | start =>
    refine ⟨[], Graph.walkVia_nil.mpr ⟨rfl, trivial⟩, Std.ExtTreeSet.size_empty.symm, fun _ => ?_⟩
    refine ⟨List.nodup_singleton e, fun m => ?_⟩
    rw [List.mem_singleton, mem_insert_path]
    exact (or_iff_left Std.ExtTreeSet.not_mem_empty).symm
  | @step path via p b n _ hp hout ih =>
    obtain ⟨ps, hwalk, hlength, hnodup⟩ := ih
    obtain ⟨hnodup, hmem⟩ := hnodup hp
    have hleads := Graph.leads_iff.mpr ⟨_, hout⟩
    refine ⟨ps ++ [n], hwalk.concat hleads trivial, ?_, fun hn => ⟨?_, fun m => ?_⟩⟩
    · rw [List.length_append, List.length_singleton, hlength, size_insert_path hp]
    · rw [← List.cons_append, ← List.concat_eq_append]
      exact List.Nodup.concat (fun hm => hn ((hmem n).mp hm)) hnodup
    · rw [← List.cons_append, List.mem_append, hmem, List.mem_singleton, mem_insert_path (n := n),
        or_comm]

variable {State : Type u} {Memory : Type v} {h : Hooks State Memory} {node : Node} {s : State}
  {w : Walk State Memory}

/-- The branches of a node continue the trail that leads there. -/
theorem branch (ht : Trail g e path via n) (hn : n ∉ path) :
    ∀ entry ∈ (process h g n node s w).1.map Branch.entry,
      Trail g e (path.insert n) entry.via entry.node := by
  intro entry hentry
  obtain ⟨b, hb, rfl⟩ := List.mem_map.mp hentry
  exact .step ht hn (mem_outgoing_of_mem_branches hb)

end Trail

end ProgramGraph.Execution
