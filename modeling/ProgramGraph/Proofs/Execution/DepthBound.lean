import ProgramGraph.Proofs.Execution.Trail

/-!
# What a bound on the depth cuts off

With a bound of `d` an execution processes nodes at the ends of walks of at most `d` steps, but not
all of these. It goes depth first, and it remembers that a node was processed and not at which
depth. A node that it first comes to at the end of a walk of `d` steps is processed there, and
nothing is entered from it; when a shorter walk comes to the same node later, the node is passed
over, and what lies behind it stays unprocessed although it is within the bound (`detour`).

`processed_run_or_cutShort` says that this is the only way to be missed, for executions that are not
bounded otherwise and whose hooks prune no branch: a walk within the bound leads to a processed
node, or it is `CutShort` at such a node. So the bound is exact if and only if no walk within it is
cut short; and it is exact in whatever order the edges are listed if no node ends both a walk of `d`
steps that repeats no node and a shorter walk.
-/

namespace ProgramGraph

open ProgramGraph.Graph (WalkVia)

/-! ### Walks of bounded length -/

namespace Graph

/-- A walk of at most `d` steps leads from the first node to the second. -/
def ReachesIn (g : Graph) (d : Nat) (m n : NodeId) : Prop :=
  ∃ ps, WalkVia g.Leads (fun _ => True) m n ps ∧ ps.length ≤ d

/-- A walk of exactly `k` steps that repeats no node leads from the first node to the second. -/
def SimplyReachesIn (g : Graph) (k : Nat) (m n : NodeId) : Prop :=
  ∃ ps, WalkVia g.Leads (fun _ => True) m n ps ∧ (m :: ps).Nodup ∧ ps.length = k

end Graph

namespace Execution

universe u v

variable {State : Type u} {Memory : Type v} {g : Graph} {e n : NodeId} {d : Nat}

/-- The path of a trail is a walk without repetition, as long as the path is large. -/
theorem Trail.simplyReachesIn {path : NodeSet} {via : Option EdgeId} (ht : Trail g e path via n)
    (hn : n ∉ path) : g.SimplyReachesIn path.size e n := by
  obtain ⟨ps, hwalk, hlength, hnodup⟩ := ht.exists_walk
  exact ⟨ps, hwalk, (hnodup hn).1, hlength⟩

/-- A walk from `e` is cut short: in fewer than `d` steps it comes to a processed node, and it goes
on from there to a node that is not processed. A walk of `d` steps that repeats no node leads there
too, and the execution is truncated. -/
def CutShort (g : Graph) (e : NodeId) (d : Nat) (t : Trace State) (ps : List NodeId) : Prop :=
  ∃ front p q rest, ps = front ++ q :: rest ∧ WalkVia g.Leads (fun _ => True) e p front ∧
    front.length < d ∧ g.Leads p q ∧ p ∈ t.processed ∧ q ∉ t.processed ∧
    g.SimplyReachesIn d e p ∧ t.truncated = true

/-- A walk that is cut short stays so when it goes on. -/
theorem CutShort.concat {t : Trace State} {ps : List NodeId} (hcut : CutShort g e d t ps)
    (q : NodeId) : CutShort g e d t (ps ++ [q]) := by
  obtain ⟨front, p, q', rest, rfl, hat⟩ := hcut
  exact ⟨front, p, q', rest ++ [q], by simp, hat⟩

/-! ### What a bounded search adds -/

/-- From one trace to a later one, with a bound of `d`: every node that was to be entered is
processed or on the path, unless it was beyond the bound; and so is every target of a node that is
processed in between, unless that node ends a walk of `d` steps. -/
structure CoversWithin (g : Graph) (e : NodeId) (d : Nat) (path : NodeSet)
    (entries : List (Entry State)) (t t' : Trace State) : Prop where
  entered : ∀ entry ∈ entries, g.contains entry.node = true →
    entry.node ∈ t'.states ∨ entry.node ∈ path ∨ d < path.size ∧ t'.truncated = true
  closed : ∀ n ∈ t'.states, n ∈ t.states ∨ ∀ m, g.Leads n m →
    m ∈ t'.states ∨ m ∈ path ∨ g.SimplyReachesIn d e n ∧ t'.truncated = true

section Descent

variable [DecidableEq State] {h : Hooks State Memory} {c : ExecutionConfig} {path : NodeSet}
  {entries : List (Entry State)} {w w' : Walk State Memory}

/-- What was cut off stays so. -/
theorem Descends.truncated (hd : Descends h c g path entries w w')
    (ht : w.trace.truncated = true) : w'.trace.truncated = true := by
  induction hd with
  | done => exact ht
  | back _ _ ih => exact ih (by rwa [Trace.truncated_recordBackEdge])
  | seen _ _ _ ih => exact ih ht
  | cut _ _ _ _ ih => exact ih rfl
  | missing _ _ _ _ _ ih => exact ih ht
  | expand _ _ _ _ _ _ ihbranches ihrest => exact ihrest (ihbranches ht)

/-- With a bound on the depth alone, the search stops beyond this depth. -/
theorem overBudget_eq_true_iff {depth : UInt64} (hdepth : c.maxDepth = some depth)
    (hstates : c.maxStates = none) {k count : Nat} :
    overBudget c k count = true ↔ depth.toNat < k := by
  simp [overBudget, hdepth, hstates]

variable {depth : UInt64} (hdepth : c.maxDepth = some depth) (hstates : c.maxStates = none)

include hdepth hstates

/-- A node is processed at the end of a walk within the bound that repeats no node. -/
theorem Descends.simplyReachesIn (hd : Descends h c g path entries w w')
    (htrail : ∀ entry ∈ entries, Trail g e path entry.via entry.node)
    (hn : n ∈ w'.trace.states) :
    n ∈ w.trace.states ∨ ∃ k ≤ depth.toNat, g.SimplyReachesIn k e n := by
  induction hd with
  | done => exact Or.inl hn
  | back _ _ ih =>
    rw [Trace.states_recordBackEdge] at ih
    exact ih (List.forall_mem_cons.mp htrail).2 hn
  | seen _ _ _ ih => exact ih (List.forall_mem_cons.mp htrail).2 hn
  | cut _ _ _ _ ih => exact ih (List.forall_mem_cons.mp htrail).2 hn
  | missing _ _ _ _ _ ih => exact ih (List.forall_mem_cons.mp htrail).2 hn
  | expand hnot _ hbudget _ _ _ ihbranches ihrest =>
    obtain ⟨htrail, hrest⟩ := List.forall_mem_cons.mp htrail
    rw [← Bool.not_eq_true, overBudget_eq_true_iff hdepth hstates, not_lt] at hbudget
    rcases ihrest hrest hn with hn | hn
    · rcases ihbranches (htrail.branch hnot) hn with hn | hn
      · refine (mem_states_process.mp hn).imp_right ?_
        rintro rfl
        exact ⟨_, hbudget, htrail.simplyReachesIn hnot⟩
      · exact Or.inr hn
    · exact Or.inr hn

/-- **A bounded search covers up to the bound**, if its hooks prune nothing. -/
theorem Descends.coversWithin (hd : Descends h c g path entries w w') (hfork : h.NeverPrune)
    (htrail : ∀ entry ∈ entries, Trail g e path entry.via entry.node) :
    CoversWithin g e depth.toNat path entries w.trace w'.trace := by
  induction hd with
  | done => exact ⟨fun _ hentry => absurd hentry List.not_mem_nil, fun _ => Or.inl⟩
  | back hn _ ih =>
    obtain ⟨hentered, hclosed⟩ := ih (List.forall_mem_cons.mp htrail).2
    rw [Trace.states_recordBackEdge] at hclosed
    exact ⟨List.forall_mem_cons.mpr ⟨fun _ => Or.inr (Or.inl hn), hentered⟩, hclosed⟩
  | seen _ hs hrest ih =>
    obtain ⟨hentered, hclosed⟩ := ih (List.forall_mem_cons.mp htrail).2
    refine ⟨List.forall_mem_cons.mpr ⟨fun _ => Or.inl ?_, hentered⟩, hclosed⟩
    exact hrest.kept (Trace.mem_states_of_mem_statesAt hs)
  | cut _ _ hbudget hrest ih =>
    obtain ⟨hentered, hclosed⟩ := ih (List.forall_mem_cons.mp htrail).2
    rw [overBudget_eq_true_iff hdepth hstates] at hbudget
    refine ⟨List.forall_mem_cons.mpr ⟨fun _ => Or.inr (Or.inr ⟨hbudget, ?_⟩), hentered⟩, hclosed⟩
    exact hrest.truncated rfl
  | missing _ _ _ hnode _ ih =>
    obtain ⟨hentered, hclosed⟩ := ih (List.forall_mem_cons.mp htrail).2
    refine ⟨List.forall_mem_cons.mpr ⟨fun hcontains => ?_, hentered⟩, hclosed⟩
    exact absurd hcontains (Graph.not_contains_of_node? hnode)
  | @expand path via n s rest w w' w'' node hn _ hbudget _ hbranches hrest ihbranches ihrest =>
    obtain ⟨htrail, hrests⟩ := List.forall_mem_cons.mp htrail
    have hwithin := ihbranches (htrail.branch hn)
    obtain ⟨hentered, hclosed⟩ := ihrest hrests
    have hself : n ∈ w''.trace.states :=
      hrest.kept (hbranches.kept (mem_states_process.mpr (Or.inr rfl)))
    -- what the branches leave to the path with the node on it, is left to the path or is the node
    have hahead : ∀ {m} {P Q : Prop}, (P → Q) →
        m ∈ w'.trace.states ∨ m ∈ path.insert n ∨ P ∧ w'.trace.truncated = true →
        m ∈ w''.trace.states ∨ m ∈ path ∨ Q ∧ w''.trace.truncated = true := by
      rintro m P Q hPQ (hm | hm | ⟨hP, ht⟩)
      · exact Or.inl (hrest.kept hm)
      · rcases mem_insert_path.mp hm with rfl | hm
        · exact Or.inl hself
        · exact Or.inr (Or.inl hm)
      · exact Or.inr (Or.inr ⟨hPQ hP, hrest.truncated ht⟩)
    refine ⟨List.forall_mem_cons.mpr ⟨fun _ => Or.inl hself, hentered⟩, fun m hm => ?_⟩
    rcases hclosed m hm with hm | hm
    · rcases hwithin.closed m hm with hm | hm
      · refine (mem_states_process.mp hm).imp_right ?_
        rintro rfl t ht
        obtain ⟨b, hb, rfl⟩ := exists_mem_branches hfork ht
        refine hahead (fun hbeyond => ?_) (hwithin.entered b.entry (List.mem_map_of_mem hb)
          (Graph.contains_of_mem_adjacent (d := .forward) ht))
        -- the node is within the bound and its targets are beyond it
        rw [← Bool.not_eq_true, overBudget_eq_true_iff hdepth hstates, not_lt] at hbudget
        rw [size_insert_path hn] at hbeyond
        have hexact := htrail.simplyReachesIn hn
        rwa [show path.size = depth.toNat by omega] at hexact
      · exact Or.inr fun t ht => hahead id (hm t ht)
    · exact Or.inr hm

end Descent

/-! ### Whole executions -/

section Run

variable [DecidableEq State] {h : Hooks State Memory} {c : ExecutionConfig} {depth : UInt64}
  {start : Option NodeId} {s : State} {m : Memory}

section

variable (hdepth : c.maxDepth = some depth) (hstates : c.maxStates = none)
  (he : g.resolve start = some e)

include hdepth hstates he

/-- A processed node is at the end of a walk within the bound that repeats no node. -/
theorem simplyReachesIn_of_mem_processed (hn : n ∈ (run h c g start s m).1.processed) :
    ∃ k ≤ depth.toNat, g.SimplyReachesIn k e n := by
  have hsound := (run_descends he h c s m).simplyReachesIn hdepth hstates (e := e)
    (List.forall_mem_singleton.mpr .start) (Trace.mem_processed.mp hn)
  exact hsound.resolve_left Std.ExtTreeMap.not_mem_empty

/-- A walk within the bound leads to a processed node or is cut short. By induction along the walk:
a target of a processed node is processed, unless that node ends a walk as long as the bound. -/
theorem mem_processed_or_cutShort (hfork : h.NeverPrune) {ps : List NodeId}
    (hwalk : WalkVia g.Leads (fun _ => True) e n ps) (hlength : ps.length ≤ depth.toNat) :
    n ∈ (run h c g start s m).1.processed ∨
      CutShort g e depth.toNat (run h c g start s m).1 ps := by
  have hcovers := (run_descends he h c s m).coversWithin hdepth hstates hfork (e := e)
    (List.forall_mem_singleton.mpr .start)
  induction ps using List.reverseRecOn generalizing n with
  | nil =>
    obtain ⟨rfl, -⟩ := Graph.walkVia_nil.mp hwalk
    refine Or.inl (Trace.mem_processed.mpr (mem_states_run_entry he ?_))
    simp [overBudget, hdepth, hstates]
  | append_singleton ps q ih =>
    obtain ⟨rfl, p, hps, hleads⟩ := hwalk.of_concat
    rw [List.length_append, List.length_singleton] at hlength
    rcases ih hps (by omega) with hp | hcut
    · refine or_iff_not_imp_left.mpr fun hq => ?_
      have hclosed := (hcovers.closed p (Trace.mem_processed.mp hp)).resolve_left
        Std.ExtTreeMap.not_mem_empty q hleads
      obtain ⟨hlong, htruncated⟩ := (hclosed.resolve_left
        (mt Trace.mem_processed.mpr hq)).resolve_left Std.ExtTreeSet.not_mem_empty
      exact ⟨ps, p, q, [], rfl, hps, by omega, hleads, hp, hq, hlong, htruncated⟩
    · exact Or.inr (hcut.concat q)

end

/-- **A bound on the depth, and what it cuts off**, for executions without another budget whose
hooks prune no branch. Every processed node ends a walk within the bound that repeats no node. Every
walk within the bound leads to a processed node or is cut short. The processed nodes are exactly
those within the bound if and only if no walk within it is cut short; and they are, in whatever
order the edges are listed, if no node ends both a walk as long as the bound that repeats no node
and a shorter walk. -/
theorem processed_run_or_cutShort (h : Hooks State Memory) (c : ExecutionConfig) (g : Graph)
    (start : Option NodeId) (e : NodeId) (s : State) (m : Memory) (depth : UInt64)
    (hdepth : c.maxDepth = some depth) (hstates : c.maxStates = none) (hfork : h.NeverPrune)
    (he : g.resolve start = some e) :
    let t := (run h c g start s m).1
    let d := depth.toNat
    (∀ n ∈ t.processed, ∃ k ≤ d, g.SimplyReachesIn k e n) ∧
    (∀ ps n, WalkVia g.Leads (fun _ => True) e n ps → ps.length ≤ d →
      n ∈ t.processed ∨ CutShort g e d t ps) ∧
    ((∀ n, n ∈ t.processed ↔ g.ReachesIn d e n) ↔
      ∀ ps n, WalkVia g.Leads (fun _ => True) e n ps → ps.length ≤ d → ¬ CutShort g e d t ps) ∧
    ((∀ p, g.SimplyReachesIn d e p → ∀ k < d, ¬ g.ReachesIn k e p) →
      ∀ n, n ∈ t.processed ↔ g.ReachesIn d e n) := by
  intro t d
  have hsound : ∀ n ∈ t.processed, ∃ k ≤ d, g.SimplyReachesIn k e n := fun n hn =>
    simplyReachesIn_of_mem_processed hdepth hstates he hn
  have hcomplete : ∀ ps n, WalkVia g.Leads (fun _ => True) e n ps → ps.length ≤ d →
      n ∈ t.processed ∨ CutShort g e d t ps := fun ps n hwalk hlength =>
    mem_processed_or_cutShort hdepth hstates he hfork hwalk hlength
  have hexact : (∀ ps n, WalkVia g.Leads (fun _ => True) e n ps → ps.length ≤ d →
      ¬ CutShort g e d t ps) → ∀ n, n ∈ t.processed ↔ g.ReachesIn d e n := by
    intro hnone n
    constructor
    · intro hn
      obtain ⟨k, hk, ps, hwalk, -, rfl⟩ := hsound n hn
      exact ⟨ps, hwalk, hk⟩
    · rintro ⟨ps, hwalk, hlength⟩
      exact (hcomplete ps n hwalk hlength).resolve_right (hnone ps n hwalk hlength)
  refine ⟨hsound, hcomplete, ⟨fun hall => ?_, hexact⟩, fun hlate => hexact ?_⟩
  · rintro ps n - - ⟨front, p, q, rest, -, hfront, hshort, hleads, -, hq, -⟩
    refine hq ((hall q).mpr ⟨front ++ [q], hfront.concat hleads trivial, ?_⟩)
    rw [List.length_append, List.length_singleton]
    exact hshort
  · rintro ps n - - ⟨front, p, q, rest, -, hfront, hshort, -, -, -, hlong, -⟩
    exact hlate p hlong front.length hshort ⟨front, hfront, le_rfl⟩

end Run

/-- Four nodes with the given edges, which are added in the order of the list. In the cases below
`A` leads to `C` over `B` and also at once, and `C` leads to `D`. -/
def detour (edges : List (Nat × Nat)) : Graph :=
  edges.foldl (fun g (m, n) => (g.connect s!"e{g.edgeCount}" ⟨m⟩ ⟨n⟩).2)
    (["A", "B", "C", "D"].foldl (fun g id => (g.addNode id).2) ∅)

/-- If the long way comes first, `C` is processed at the end of it, and what lies behind is cut off
from the short way. Under a bound of one step no way is long enough for that. -/
theorem processed_run_or_cutShort_detour :
    let g := detour [(0, 1), (1, 2), (0, 2), (2, 3)]
    let c : ExecutionConfig := { maxDepth := some 2 }
    let c' : ExecutionConfig := { maxDepth := some 1 }
    let t := (run Hooks.pass c g (some ⟨0⟩) (∅ : Bag) ()).1
    let t' := (run Hooks.pass c' g (some ⟨0⟩) (∅ : Bag) ()).1
    c.maxStates = none ∧ (Hooks.pass : Hooks Bag Unit).NeverPrune ∧
      g.resolve (some ⟨0⟩) = some ⟨0⟩ ∧ CutShort g ⟨0⟩ 2 t [⟨2⟩, ⟨3⟩] ∧
      ∀ n, n ∈ t'.processed ↔ g.ReachesIn 1 ⟨0⟩ n := by
  intro g c c' t t'
  have he : g.resolve (some ⟨0⟩) = some ⟨0⟩ := by decide
  have hwalk : WalkVia g.Leads (fun _ => True) ⟨0⟩ ⟨3⟩ [⟨2⟩, ⟨3⟩] := by
    simp only [Graph.walkVia_cons, Graph.walkVia_nil]
    decide
  obtain ⟨-, hcomplete, -⟩ := processed_run_or_cutShort Hooks.pass c g (some ⟨0⟩) ⟨0⟩ (∅ : Bag) ()
    2 rfl rfl Hooks.neverPrune_pass he
  obtain ⟨-, -, -, hexact⟩ := processed_run_or_cutShort Hooks.pass c' g (some ⟨0⟩) ⟨0⟩ (∅ : Bag) ()
    1 rfl rfl Hooks.neverPrune_pass he
  refine ⟨rfl, Hooks.neverPrune_pass, he, (hcomplete _ _ hwalk le_rfl).resolve_left ?_, hexact ?_⟩
  · decide +kernel
  · rintro p ⟨ps, hps, hnodup, hone⟩ k hk ⟨qs, hqs, hlength⟩
    obtain rfl : qs = [] := List.eq_nil_of_length_eq_zero (by change k < 1 at hk; omega)
    obtain ⟨rfl, -⟩ := Graph.walkVia_nil.mp hqs
    obtain ⟨q, rfl⟩ := List.length_eq_one_iff.mp hone
    obtain ⟨rfl, -⟩ := Graph.walkVia_nil.mp (Graph.walkVia_cons.mp hps).2.2
    simp at hnodup

/-- A bound of two steps is not exact: `D` is within two steps, over the short way, and is not
processed if the long way comes first. If the short way comes first it is. -/
theorem not_exact_detour :
    let c : ExecutionConfig := { maxDepth := some 2 }
    let g := detour [(0, 1), (1, 2), (0, 2), (2, 3)]
    let g' := detour [(0, 2), (0, 1), (1, 2), (2, 3)]
    g.resolve (some ⟨0⟩) = some ⟨0⟩ ∧ g.ReachesIn 2 ⟨0⟩ ⟨3⟩ ∧
      ⟨3⟩ ∉ (execute Hooks.pass c g (some ⟨0⟩) (∅ : Bag) ()).1.processed ∧
      ⟨3⟩ ∈ (execute Hooks.pass c g' (some ⟨0⟩) (∅ : Bag) ()).1.processed := by
  intro c g g'
  refine ⟨by decide, ⟨[⟨2⟩, ⟨3⟩], ?_, le_rfl⟩, by decide +kernel, by decide +kernel⟩
  simp only [Graph.walkVia_cons, Graph.walkVia_nil]
  decide

end Execution

end ProgramGraph
