import ProgramGraph.Proofs.Engine.Operation
import ProgramGraph.Proofs.Graph.Linked

/-!
# Building a graph, with analyses in between

A `Construction` is a graph together with the handles that were issued for its nodes. It grows by
calls that add a node, connect two nodes or write a property, and between these the graph may be
analysed in any way that writes to it (`Call`). A call that connects nodes is given handles issued
before; other calls may be given any handles.

One call keeps the graph linked and adds the edge it was asked for, if any; so any number of calls
leaves a linked graph (`Construction.Sound.after`) whose edges are the calls that connected nodes,
in order (`Construction.links_after`).
-/

namespace ProgramGraph

open ProgramGraph.Graph (SameShape)

/-! ### Analyses keep the shape -/

/-- Executions write markers, and leave the shape of the graph as it is. -/
theorem Execution.sameShape_executeEach (c : ExecutionConfig) (g : Graph) (ns : List NodeId) :
    SameShape g (executeEach c g ns).2 := by
  induction ns generalizing g with
  | nil => exact SameShape.refl g
  | cons n ns ih => exact (agreesOff_writeMarkers c g _).toSameShape.trans (ih _)

/-! ### Calls -/

/-- What builds a graph, or analyses it and writes to it. -/
inductive Call : Type 1 where
  | addNode (id : String)
  | connect (id : String) (s t : NodeId)
  | setProperty (n : NodeId) (key value : String)
  | setEdgeProperty (e : EdgeId) (key value : String)
  | taint (c : TaintConfig) (entry : Option NodeId)
  | taintMany (c : TaintConfig) (entries : List NodeId)
  | taintAll (c : TaintConfig)
  | execute {State Memory : Type} [DecidableEq State] (hooks : Execution.Hooks State Memory)
      (c : ExecutionConfig) (entry : Option NodeId) (s : State) (m : Memory)
  | explore (c : ExecutionConfig)

/-- The nodes that a call connects. -/
def Call.ends? : Call → Option (NodeId × NodeId)
  | connect _ s t => some (s, t)
  | _ => none

/-- The call writes node properties and nothing else. -/
def Call.KeepsShape : Call → Prop
  | addNode _ | connect _ _ _ | setEdgeProperty _ _ _ => False
  | _ => True

/-- A graph, and the handles that were issued for its nodes. -/
structure Construction where
  graph : Graph := ∅
  issued : List NodeId := []

namespace Construction

/-- Makes a call. -/
def perform (k : Construction) : Call → Construction
  | .addNode id =>
    let (n, graph) := k.graph.addNode id
    { graph, issued := n :: k.issued }
  | .connect id s t => { k with graph := (k.graph.connect id s t).2 }
  | .setProperty n key value => { k with graph := k.graph.setProperty n key value }
  | .setEdgeProperty e key value => { k with graph := k.graph.setEdgeProperty e key value }
  | .taint c entry => { k with graph := (Taint.analyze c k.graph entry).2 }
  | .taintMany c entries => { k with graph := (Taint.analyzeMany c k.graph entries).2 }
  | .taintAll c => { k with graph := (Taint.propagateAll c k.graph).2 }
  | @Call.execute _ _ _ hooks c entry s m =>
    { k with graph := (Execution.execute hooks c k.graph entry s m).2.1 }
  | .explore c => { k with graph := (Execution.explore c k.graph).2 }

/-- Makes calls one after the other. -/
def after (k : Construction) (calls : List Call) : Construction :=
  calls.foldl perform k

/-- Calls connect only nodes whose handles were issued before. -/
def UsesIssued (k : Construction) : List Call → Prop
  | [] => True
  | call :: calls =>
    (∀ ends ∈ call.ends?, ends.1 ∈ k.issued ∧ ends.2 ∈ k.issued) ∧ (k.perform call).UsesIssued calls

instance (k : Construction) (calls : List Call) : Decidable (k.UsesIssued calls) :=
  match calls with
  | [] => isTrue trivial
  | call :: calls =>
    have : Decidable ((k.perform call).UsesIssued calls) := instDecidableUsesIssued _ calls
    inferInstanceAs (Decidable (_ ∧ _))

variable {k : Construction} {call : Call} {calls : List Call}

/-- A call that adds nothing leaves the shape of the graph as it is. -/
theorem sameShape_perform (k : Construction) (hcall : call.KeepsShape) :
    SameShape k.graph (k.perform call).graph := by
  cases call with
  | addNode => exact hcall.elim
  | connect => exact hcall.elim
  | setEdgeProperty => exact hcall.elim
  | setProperty n key value => exact k.graph.sameShape_setProperty n key value
  | taint c entry => exact (Taint.agreesOff_analyze c k.graph entry).toSameShape
  | taintMany c entries => exact (Taint.agreesOff_analyzeEach c k.graph entries).toSameShape
  | taintAll c => exact (Taint.agreesOff_analyzeEach c k.graph _).toSameShape
  | execute hooks c entry s m => exact (Execution.agreesOff_writeMarkers c k.graph _).toSameShape
  | explore c => exact Execution.sameShape_executeEach c k.graph _

/-! ### What a call keeps -/

/-- The graph is linked, and the issued handles resolve. -/
structure Sound (k : Construction) : Prop where
  linked : k.graph.Linked
  issued : ∀ n ∈ k.issued, k.graph.contains n = true

/-- The empty graph is linked, and no handle was issued yet. -/
theorem sound_empty : ({} : Construction).Sound :=
  ⟨Graph.linked_empty, by simp⟩

/-- Soundness is about the shape of the graph only. -/
theorem Sound.of_sameShape (hk : k.Sound) {g : Graph} (hs : SameShape k.graph g) :
    ({ k with graph := g } : Construction).Sound :=
  ⟨hs.linked hk.linked, fun n hn => (hs.contains_eq n).trans (hk.issued n hn)⟩

/-- **One call keeps the graph linked.** -/
theorem Sound.perform (hk : k.Sound)
    (hends : ∀ ends ∈ call.ends?, ends.1 ∈ k.issued ∧ ends.2 ∈ k.issued) :
    (k.perform call).Sound := by
  have hshape : call.KeepsShape → SameShape k.graph (k.perform call).graph := k.sameShape_perform
  cases call with
  | addNode id =>
    have hcontains := Graph.contains_addNode k.graph id
    refine ⟨hk.linked.addNode id, List.forall_mem_cons.mpr ⟨?_, fun n hn => ?_⟩⟩
    · exact (hcontains _).mpr (Or.inl rfl)
    · exact (hcontains n).mpr (Or.inr (hk.issued n hn))
  | connect id s t =>
    obtain ⟨hs, ht⟩ := hends (s, t) rfl
    refine ⟨hk.linked.connect id (hk.issued s hs) (hk.issued t ht), fun n hn => ?_⟩
    exact (Graph.contains_connect k.graph id s t n).trans (hk.issued n hn)
  | setEdgeProperty e key value => exact ⟨hk.linked.setEdgeProperty e key value, hk.issued⟩
  | _ => exact hk.of_sameShape (hshape trivial)

/-- **Any number of calls keeps it linked.** -/
theorem Sound.after (hk : k.Sound) (hcalls : k.UsesIssued calls) : (k.after calls).Sound := by
  induction calls generalizing k with
  | nil => exact hk
  | cons call calls ih => exact ih (hk.perform hcalls.1) hcalls.2

/-! ### The edges are the calls that connect nodes -/

/-- The ends of the edges of the graph, in order. -/
def links (k : Construction) : List (Option NodeId × Option NodeId) :=
  k.graph.edges.toList.map fun edge => (edge.source, edge.target)

/-- The edges that join two nodes, read off the list of links. -/
theorem joins_iff_links {e : EdgeId} {s t : NodeId} :
    k.graph.Joins e s t ↔ k.links[e.index]? = some (some s, some t) := by
  simp [Graph.Joins, Graph.edge?, links, Prod.ext_iff]

/-- Links are part of the shape of a graph. -/
theorem links_of_sameShape {k' : Construction} (hs : SameShape k.graph k'.graph) :
    k'.links = k.links := by
  rw [links, links, hs.edges_eq]

theorem links_setEdgeProperty (k : Construction) (e : EdgeId) (key value : String) :
    (k.perform (.setEdgeProperty e key value)).links = k.links := by
  refine List.ext_getElem? fun i => ?_
  simp only [links, perform, Graph.setEdgeProperty, Graph.modifyEdge, List.getElem?_map,
    Array.getElem?_toList, Array.getElem?_modify]
  split
  · rw [Option.map_map]
    rfl
  · rfl

/-- One call adds the edge that it was asked for. -/
theorem links_perform (k : Construction) (call : Call) : (k.perform call).links =
    k.links ++ call.ends?.toList.map fun ends => (some ends.1, some ends.2) := by
  have hshape : call.KeepsShape → SameShape k.graph (k.perform call).graph := k.sameShape_perform
  cases call with
  | addNode id => exact (List.append_nil k.links).symm
  | connect id s t =>
    have hedges : (k.graph.connect id s t).2.edges =
        k.graph.edges.push ⟨id, some s, some t, ∅⟩ := rfl
    rw [links, perform, hedges, Array.toList_push, List.map_append]
    rfl
  | setEdgeProperty e key value =>
    exact (links_setEdgeProperty k e key value).trans (List.append_nil k.links).symm
  | _ => exact (links_of_sameShape (hshape trivial)).trans (List.append_nil k.links).symm

/-- **Links are added in the order of the calls**, and none is ever removed. -/
theorem links_after (k : Construction) (calls : List Call) : (k.after calls).links =
    k.links ++ (calls.filterMap Call.ends?).map fun ends => (some ends.1, some ends.2) := by
  induction calls generalizing k with
  | nil => simp [after]
  | cons call calls ih =>
    have hcons : k.after (call :: calls) = (k.perform call).after calls := rfl
    rw [hcons, ih, links_perform, List.append_assoc, ← List.map_append]
    cases hends : call.ends? <;> simp [hends]

/-- **Adjacency is transposed exactly.** After any calls, with analyses at any places between them,
an edge is found from one node with another exactly as often as from the other with the one: once if
it joins the two in this order, and not at all otherwise. It joins them if the call that made it was
asked to connect them. -/
theorem count_outgoing_eq_count_incoming (calls : List Call)
    (hcalls : ({} : Construction).UsesIssued calls) (e : EdgeId) (s t : NodeId) :
    let g := (({} : Construction).after calls).graph
    (g.outgoing s).count (e, t) = (g.incoming t).count (e, s) ∧
      (g.outgoing s).count (e, t) = (if g.Joins e s t then 1 else 0) ∧
      (g.Joins e s t ↔ (calls.filterMap Call.ends?)[e.index]? = some (s, t)) := by
  intro g
  have hg : g.Linked := (sound_empty.after hcalls).linked
  refine ⟨?_, hg.count_outgoing s t e, ?_⟩
  · rw [hg.count_outgoing, hg.count_incoming]
  · have hnone : ({} : Construction).links = [] := rfl
    rw [joins_iff_links, links_after, hnone, List.nil_append,
      List.getElem?_map, Option.map_eq_some_iff]
    simp [Prod.ext_iff]

/-- Two parallel edges, of which the second is made after a taint run, and a self loop of a node
that is added after them; the other analyses come last but for a write to an edge. -/
theorem count_outgoing_eq_count_incoming_parallel :
    let calls : List Call :=
      [.addNode "A", .addNode "B", .connect "x" ⟨0⟩ ⟨1⟩, .setProperty ⟨0⟩ "tainted" "true",
        .taint {} (some ⟨0⟩), .connect "y" ⟨0⟩ ⟨1⟩, .addNode "C", .connect "z" ⟨2⟩ ⟨2⟩, .explore {},
        .execute Execution.Hooks.pass {} (some ⟨2⟩) (∅ : Bag) (),
        .setEdgeProperty ⟨1⟩ "kind" "data"]
    let g := (({} : Construction).after calls).graph
    ({} : Construction).UsesIssued calls ∧
      g.outgoing ⟨0⟩ = [(⟨0⟩, ⟨1⟩), (⟨1⟩, ⟨1⟩)] ∧ g.column "tainted" = ["true", "true", ""] ∧
      (g.outgoing ⟨0⟩).count (⟨1⟩, ⟨1⟩) = (g.incoming ⟨1⟩).count (⟨1⟩, ⟨0⟩) ∧
      g.Joins ⟨2⟩ ⟨2⟩ ⟨2⟩ ∧ (g.incoming ⟨2⟩).count (⟨2⟩, ⟨2⟩) = 1 := by
  intro calls g
  have hcalls : ({} : Construction).UsesIssued calls := by decide +kernel
  have hparallel := count_outgoing_eq_count_incoming calls hcalls ⟨1⟩ ⟨0⟩ ⟨1⟩
  obtain ⟨hboth, hcount, hjoins⟩ := count_outgoing_eq_count_incoming calls hcalls ⟨2⟩ ⟨2⟩ ⟨2⟩
  have hself : g.Joins ⟨2⟩ ⟨2⟩ ⟨2⟩ := hjoins.mpr rfl
  rw [if_pos hself] at hcount
  exact ⟨hcalls, by decide +kernel, by decide +kernel, hparallel.1, hself, hboth.symm.trans hcount⟩

end Construction

end ProgramGraph
