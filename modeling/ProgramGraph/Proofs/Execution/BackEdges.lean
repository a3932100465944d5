import ProgramGraph.Proofs.Execution.Trail

/-!
# Back edges are what closes cycles

An edge is recorded as a back edge when it leads onto the path, whose nodes lead to where it starts;
so it lies on a cycle, with any hooks and under any budget (`Descends.closesCycle`).

If no branch is pruned and nothing cut off, no cycle is left without them. Take the back edges out
of all lists. A node that the search has processed and left is then the start of finitely many
walks only: when it is left each of its other edges leads to a node that was left before. This is
stated as accessibility (`Descends.acc`), so that no order of leaving has to be written down.
-/

namespace ProgramGraph

open Relation (ReflTransGen TransGen)

/-! ### Deleting edges -/

namespace Graph

/-- No longer lists the edges as leaving any node. -/
def unlink (g : Graph) (es : Array EdgeId) : Graph :=
  { g with nodes := g.nodes.map fun node =>
      { node with outgoing := node.outgoing.filter (!es.contains ·) } }

variable {g : Graph} {es : Array EdgeId} {n t : NodeId} {b : EdgeId}

/-- Edges keep their targets. -/
theorem target?_unlink (e : EdgeId) : (g.unlink es).target? e = g.target? e := by
  have hcontains : (g.unlink es).contains = g.contains := by
    funext m
    rw [Bool.eq_iff_iff, contains_iff, contains_iff]
    simp [nodeCount, unlink]
  simp only [target?, resolve, hcontains]
  rfl

/-- Exactly the other edges still leave a node. -/
theorem mem_outgoing_unlink_iff :
    (b, t) ∈ (g.unlink es).outgoing n ↔ (b, t) ∈ g.outgoing n ∧ b ∉ es := by
  have hlisted : (g.unlink es).listedOutgoing n =
      (g.listedOutgoing n).filter (!es.contains ·) := by
    simp only [listedOutgoing, node?, unlink, Array.getElem?_map]
    cases g.nodes[n.index]? with
    | none => rfl
    | some node => simp
  simp only [outgoing, hlisted, target?_unlink, List.mem_filterMap, List.mem_filter,
    Option.map_eq_some_iff, Prod.mk.injEq, Bool.not_eq_true', Array.contains_eq_mem,
    decide_eq_false_iff_not]
  constructor
  · rintro ⟨e, ⟨hlist, hnot⟩, t', htarget, rfl, rfl⟩
    exact ⟨⟨e, hlist, t', htarget, rfl, rfl⟩, hnot⟩
  · rintro ⟨⟨e, hlist, t', htarget, rfl, rfl⟩, hnot⟩
    exact ⟨e, ⟨hlist, hnot⟩, t', htarget, rfl, rfl⟩

/-- A node leads to those that it leads to by another edge. -/
theorem leads_unlink_iff {m : NodeId} :
    (g.unlink es).Leads m n ↔ ∃ b, (b, n) ∈ g.outgoing m ∧ b ∉ es := by
  simp only [leads_iff, mem_outgoing_unlink_iff]

end Graph

/-- No walk leads back to where only finitely long walks start. -/
theorem not_transGen_self_of_acc {α : Type} {r : α → α → Prop} {a : α}
    (h : Acc (fun b a => r a b) a) : ¬ TransGen r a a := by
  have htrans := h.transGen
  rw [← Relation.transGen_swap]
  induction htrans with
  | intro a _ ih => exact fun hcycle => ih a hcycle (Acc.inv_of_transGen h hcycle) hcycle

namespace Execution

universe u v

variable {State : Type u} {Memory : Type v}

/-! ### Every back edge closes a cycle -/

/-- The edge leaves a node within reach of the entry for one from which there is a way back. -/
def ClosesCycle (g : Graph) (e : NodeId) (b : EdgeId) : Prop :=
  ∃ u v, ReflTransGen g.Leads e u ∧ (b, v) ∈ g.outgoing u ∧ ReflTransGen g.Leads v u

/-- A trail that comes to a node of its own path closes a cycle. -/
theorem Trail.closesCycle {g : Graph} {e n : NodeId} {path : NodeSet} {b : EdgeId}
    (ht : Trail g e path (some b) n) (hn : n ∈ path) : ClosesCycle g e b := by
  cases ht with
  | @step _ via p _ _ ht _ hout =>
    refine ⟨p, n, ht.reaches.1, hout, ?_⟩
    rcases mem_insert_path.mp hn with rfl | hn
    · exact .refl
    · exact (ht.reaches.2 n hn).2

section Descent

variable [DecidableEq State] {h : Hooks State Memory} {c : ExecutionConfig} {g : Graph} {e : NodeId}
  {path : NodeSet} {entries : List (Entry State)} {w w' : Walk State Memory} {b : EdgeId}

/-- **Back edges close cycles**, with any hooks and under any budget. -/
theorem Descends.closesCycle (hd : Descends h c g path entries w w')
    (htrail : ∀ entry ∈ entries, Trail g e path entry.via entry.node)
    (hb : b ∈ w'.trace.backEdges) : b ∈ w.trace.backEdges ∨ ClosesCycle g e b := by
  induction hd with
  | done => exact Or.inl hb
  | back hn _ ih =>
    obtain ⟨htrail, hrest⟩ := List.forall_mem_cons.mp htrail
    rcases ih hrest hb with hb | hb
    · refine (Trace.mem_backEdges_recordBackEdge.mp hb).imp_right fun hvia => ?_
      rw [hvia] at htrail
      exact htrail.closesCycle hn
    · exact Or.inr hb
  | seen _ _ _ ih => exact ih (List.forall_mem_cons.mp htrail).2 hb
  | cut _ _ _ _ ih => exact ih (List.forall_mem_cons.mp htrail).2 hb
  | missing _ _ _ _ _ ih => exact ih (List.forall_mem_cons.mp htrail).2 hb
  | expand hn _ _ _ _ _ ihbranches ihrest =>
    obtain ⟨htrail, hrest⟩ := List.forall_mem_cons.mp htrail
    rcases ihrest hrest hb with hb | hb
    · exact ihbranches (htrail.branch hn) hb
    · exact Or.inr hb

/-! ### No cycle is left -/

/-- No back edge is lost. -/
theorem Descends.backEdges_subset (hd : Descends h c g path entries w w')
    (hb : b ∈ w.trace.backEdges) : b ∈ w'.trace.backEdges := by
  induction hd with
  | done => exact hb
  | back _ _ ih => exact ih (Trace.mem_backEdges_recordBackEdge.mpr (Or.inl hb))
  | seen _ _ _ ih => exact ih hb
  | cut _ _ _ _ ih => exact ih hb
  | missing _ _ _ _ _ ih => exact ih hb
  | expand _ _ _ _ _ _ ihbranches ihrest => exact ihrest (ihbranches hb)

/-- An edge over which a node of the path was to be entered is recorded. -/
theorem Descends.recorded (hd : Descends h c g path entries w w') {entry : Entry State}
    (hentry : entry ∈ entries) (hvia : entry.via = some b) (hn : entry.node ∈ path) :
    b ∈ w'.trace.backEdges := by
  induction hd with
  | done => exact absurd hentry List.not_mem_nil
  | back _ hrest ih =>
    rcases List.mem_cons.mp hentry with rfl | hentry
    · exact hrest.backEdges_subset (Trace.mem_backEdges_recordBackEdge.mpr (Or.inr hvia))
    · exact ih hentry hn
  | seen hnot _ _ ih =>
    rcases List.mem_cons.mp hentry with rfl | hentry
    · exact absurd hn hnot
    · exact ih hentry hn
  | cut hnot _ _ _ ih =>
    rcases List.mem_cons.mp hentry with rfl | hentry
    · exact absurd hn hnot
    · exact ih hentry hn
  | missing hnot _ _ _ _ ih =>
    rcases List.mem_cons.mp hentry with rfl | hentry
    · exact absurd hn hnot
    · exact ih hentry hn
  | expand hnot _ _ _ _ _ _ ihrest =>
    rcases List.mem_cons.mp hentry with rfl | hentry
    · exact absurd hn hnot
    · exact ihrest hentry hn

/-- **What the search has left starts no endless walk** that avoids the back edges, if no branch is
pruned and nothing cut off. -/
theorem Descends.acc {back : Array EdgeId} (hd : Descends h c g path entries w w')
    (hdepth : c.maxDepth = none) (hstates : c.maxStates = none) (hfork : h.NeverPrune)
    (hback : ∀ b ∈ w'.trace.backEdges, b ∈ back)
    (hacc : ∀ n ∈ w.trace.states, n ∉ path → Acc (fun m n => (g.unlink back).Leads n m) n) :
    ∀ n ∈ w'.trace.states, n ∉ path → Acc (fun m n => (g.unlink back).Leads n m) n := by
  induction hd with
  | done => exact hacc
  | back _ _ ih =>
    rw [Trace.states_recordBackEdge] at ih
    exact ih hback hacc
  | seen _ _ _ ih => exact ih hback hacc
  | cut _ _ hbudget => simp [overBudget, hdepth, hstates] at hbudget
  | missing _ _ _ _ _ ih => exact ih hback hacc
  | @expand path via n s rest w w' w'' node hn _ _ _ hbranches hrest ihbranches ihrest =>
    have hback' : ∀ b ∈ w'.trace.backEdges, b ∈ back := fun b hb =>
      hback b (hrest.backEdges_subset hb)
    have hleft := ihbranches hback' fun m hm hpath => by
      rw [mem_insert_path, not_or] at hpath
      exact hacc m ((mem_states_process.mp hm).resolve_right hpath.1) hpath.2
    have hself : Acc (fun m n => (g.unlink back).Leads n m) n := by
      refine Acc.intro n fun m hleads => ?_
      obtain ⟨b, hout, hnot⟩ := Graph.leads_unlink_iff.mp hleads
      rw [← map_branches_eq s node w hfork] at hout
      obtain ⟨branch, hbranch, heq⟩ := List.mem_map.mp hout
      obtain ⟨rfl, rfl⟩ := Prod.mk.inj heq
      have hentry := List.mem_map_of_mem (f := Branch.entry) hbranch
      -- the edge is no back edge, so its target is off the path, and was left with the branches
      have hpath : branch.target ∉ path.insert n := fun hm =>
        hnot (hback' _ (hbranches.recorded hentry rfl hm))
      have hcontains := Graph.contains_of_mem_adjacent (d := .forward)
        (leads_of_mem_branches hbranch)
      have hentered := (hbranches.covers hdepth hstates hfork).entered _ hentry hcontains
      exact hleft _ (hentered.resolve_right hpath) hpath
    refine ihrest hback fun m hm hpath => ?_
    by_cases hmn : m = n
    · rw [hmn]
      exact hself
    · exact hleft m hm fun hm => (mem_insert_path.mp hm).elim hmn hpath

end Descent

/-! ### Whole executions -/

section Run

variable [DecidableEq State]

/-- **Back edges are exactly what closes cycles**, in an execution without budgets whose hooks prune
no branch: every back edge lies on a cycle within reach of the entry; if the back edges are deleted
from all lists, no cycle is left within reach; and there are none exactly if no cycle is within
reach. -/
theorem backEdges_run_close_cycles (h : Hooks State Memory) (c : ExecutionConfig) (g : Graph)
    (start : Option NodeId) (e : NodeId) (s : State) (m : Memory) (hdepth : c.maxDepth = none)
    (hstates : c.maxStates = none) (hfork : h.NeverPrune) (he : g.resolve start = some e) :
    let back := (run h c g start s m).1.backEdges
    (∀ b ∈ back, ∃ u v, ReflTransGen g.Leads e u ∧ (b, v) ∈ g.outgoing u ∧
      ReflTransGen g.Leads v u) ∧
    (∀ n, ReflTransGen g.Leads e n → ¬ TransGen (g.unlink back).Leads n n) ∧
    (back = #[] ↔ ∀ n, ReflTransGen g.Leads e n → ¬ TransGen g.Leads n n) := by
  intro back
  have hd := run_descends he h c s m
  have hcloses : ∀ b ∈ back, ClosesCycle g e b := fun b hb =>
    (hd.closesCycle (e := e) (List.forall_mem_singleton.mpr .start) hb).resolve_left (by simp)
  have hacyclic : ∀ n, ReflTransGen g.Leads e n → ¬ TransGen (g.unlink back).Leads n n := by
    intro n hreach
    have hn := mem_states_run_of_reaches (s := s) (m := m) hdepth hstates hfork he hreach
    refine not_transGen_self_of_acc (hd.acc hdepth hstates hfork (fun b hb => hb) ?_ n hn
      Std.ExtTreeSet.not_mem_empty)
    exact fun k hk => absurd hk Std.ExtTreeMap.not_mem_empty
  refine ⟨hcloses, hacyclic, fun hnone n hreach hcycle => ?_, fun hnone => ?_⟩
  · refine hacyclic n hreach (TransGen.mono (fun k l hleads => ?_) n n hcycle)
    obtain ⟨b, hout⟩ := Graph.leads_iff.mp hleads
    exact Graph.leads_unlink_iff.mpr ⟨b, hout, by simp [hnone]⟩
  · refine Array.eq_empty_iff_forall_not_mem.mpr fun b hb => ?_
    obtain ⟨u, v, hreach, hout, hback⟩ := hcloses b hb
    exact hnone u hreach (TransGen.head' (Graph.leads_iff.mpr ⟨b, hout⟩) hback)

end Run

/-- In the complete graph on three nodes the search goes along two edges, from each node to the
next; of the other edges it leaves aside the one from the first node to the last, and records those
that lead to the same node or back. -/
theorem backEdges_run_close_cycles_complete :
    let c : ExecutionConfig := {}
    let g := Graph.addShape ∅ .complete 3 "n"
    let back := (run Hooks.pass c g (some ⟨0⟩) (∅ : Bag) ()).1.backEdges
    c.maxDepth = none ∧ c.maxStates = none ∧ (Hooks.pass : Hooks Bag Unit).NeverPrune ∧
      g.resolve (some ⟨0⟩) = some ⟨0⟩ ∧ back = #[⟨0⟩, ⟨3⟩, ⟨4⟩, ⟨6⟩, ⟨7⟩, ⟨8⟩] ∧
      TransGen g.Leads ⟨1⟩ ⟨1⟩ ∧ ¬ TransGen (g.unlink back).Leads ⟨1⟩ ⟨1⟩ := by
  intro c g back
  obtain ⟨-, hacyclic, -⟩ := backEdges_run_close_cycles Hooks.pass c g (some ⟨0⟩) ⟨0⟩ (∅ : Bag) ()
    rfl rfl Hooks.neverPrune_pass (by decide)
  refine ⟨rfl, rfl, Hooks.neverPrune_pass, by decide, by decide +kernel, .single (by decide), ?_⟩
  exact hacyclic ⟨1⟩ (.single (by decide))

end Execution

end ProgramGraph
