import Mathlib.Logic.Relation
import ProgramGraph.Proofs.FiniteSet
import ProgramGraph.Proofs.Execution.Search

/-!
# The search as a derivation, and as a machine

`Execution.enter` recurs on the room that is left on the path. Here the same search is described
twice without any such number.

* `Descends` derives, case by case, what entering a list of nodes one after the other does. A
  derivation is finite, so that one exists says that the search comes to its end; and proofs about
  the search are inductions over the derivation, without regard to room. `run_descends`: there is
  one for every execution, and it ends in what the execution gives.
* `Machine` keeps the nodes still to be entered, and those still to be left, on a stack and takes
  one step at a time. Nothing bounds it but the path, on which no node stands twice.
  `machine_ends`: it stops, on every graph and with any hooks, with what the execution gives.

The hooks may have a memory, so that no state need ever come twice.
-/

namespace ProgramGraph.Execution

open Relation (ReflTransGen)

universe u v

variable {State : Type u} {Memory : Type v}

/-! ### Entering nodes one after the other -/

/-- A node that is to be entered: over which edge, if any, and with which state. -/
structure Entry (State : Type u) where
  via : Option EdgeId
  node : NodeId
  state : State

/-- The target of a branch is entered over its edge. -/
def Branch.entry (b : Branch State) : Entry State :=
  ⟨some b.edge, b.target, b.state⟩

/-- Entering the nodes of a list one after the other, each with all that it leads to, takes the
search from one walk to another; before them stand the nodes of a path. -/
inductive Descends [DecidableEq State] (h : Hooks State Memory) (c : ExecutionConfig) (g : Graph) :
    NodeSet → List (Entry State) → Walk State Memory → Walk State Memory → Prop
  | done {path w} : Descends h c g path [] w w
  | back {path via n s rest w w'} : n ∈ path →
      Descends h c g path rest { w with trace := w.trace.recordBackEdge via } w' →
      Descends h c g path (⟨via, n, s⟩ :: rest) w w'
  | seen {path via n s rest w w'} : n ∉ path → s ∈ w.trace.statesAt n →
      Descends h c g path rest w w' →
      Descends h c g path (⟨via, n, s⟩ :: rest) w w'
  | cut {path via n s rest w w'} : n ∉ path → s ∉ w.trace.statesAt n →
      overBudget c path.size w.trace.stateCount = true →
      Descends h c g path rest { w with trace := { w.trace with truncated := true } } w' →
      Descends h c g path (⟨via, n, s⟩ :: rest) w w'
  | missing {path via n s rest w w'} : n ∉ path → s ∉ w.trace.statesAt n →
      overBudget c path.size w.trace.stateCount = false → g.node? n = none →
      Descends h c g path rest w w' →
      Descends h c g path (⟨via, n, s⟩ :: rest) w w'
  | expand {path via n s rest w w' w''} {node : Node} : n ∉ path → s ∉ w.trace.statesAt n →
      overBudget c path.size w.trace.stateCount = false → g.node? n = some node →
      Descends h c g (path.insert n) ((process h g n node s w).1.map Branch.entry)
        (process h g n node s w).2 w' →
      Descends h c g path rest w' w'' →
      Descends h c g path (⟨via, n, s⟩ :: rest) w w''

/-! ### Paths -/

section Path

variable {g : Graph} {path : NodeSet} {n : NodeId}

theorem mem_insert_path {m : NodeId} : m ∈ path.insert n ↔ m = n ∨ m ∈ path := by
  rw [Std.ExtTreeSet.mem_insert, Std.LawfulEqOrd.compare_eq_iff_eq, eq_comm]

theorem size_insert_path (hn : n ∉ path) : (path.insert n).size = path.size + 1 := by
  rw [Std.ExtTreeSet.size_insert, if_neg]
  exact fun hc => hn (Std.ExtTreeSet.contains_iff_mem.mp hc)

/-- Leaving a node gives back the path before it was entered. -/
theorem erase_insert_path (hn : n ∉ path) : (path.insert n).erase n = path := by
  refine Std.ExtTreeSet.ext_mem fun m => ?_
  rw [Std.ExtTreeSet.mem_erase, mem_insert_path, Ne, Std.LawfulEqOrd.compare_eq_iff_eq]
  constructor
  · rintro ⟨hne, heq | hm⟩
    · exact absurd heq.symm hne
    · exact hm
  · intro hm
    refine ⟨?_, Or.inr hm⟩
    rintro rfl
    exact hn hm

/-- A path that a node can be added to is shorter than the graph has nodes. -/
theorem size_path_lt (hpath : ∀ m ∈ path, g.contains m = true) (hn : n ∉ path)
    (hcontains : g.contains n = true) : path.size < g.nodeCount := by
  have hall : ∀ m ∈ path.insert n, m ∈ g.nodeIds := by
    intro m hm
    rcases mem_insert_path.mp hm with rfl | hm
    · exact Graph.mem_nodeIds.mpr hcontains
    · exact Graph.mem_nodeIds.mpr (hpath m hm)
  have hsize := FiniteSet.size_le_length hall
  rw [size_insert_path hn, Graph.nodeIds, List.length_map, List.length_range] at hsize
  exact hsize

end Path

/-! ### The search is derived -/

section Search

variable [DecidableEq State] {h : Hooks State Memory} {c : ExecutionConfig} {g : Graph}
  {path : NodeSet} {room : Nat} {via : Option EdgeId} {n : NodeId} {s : State}
  {rest : List (Entry State)} {w w' : Walk State Memory}

/-- The branches of a node are entered one after the other, if each can be entered in front of any
others. -/
theorem descends_foldl {f : Walk State Memory → Branch State → Walk State Memory}
    (hf : ∀ {b rest w w'}, Descends h c g path rest (f w b) w' →
      Descends h c g path (b.entry :: rest) w w') (bs : List (Branch State))
    (w : Walk State Memory) : Descends h c g path (bs.map Branch.entry) w (bs.foldl f w) := by
  induction bs generalizing w with
  | nil => exact .done
  | cons b bs ih => exact hf (ih (f w b))

/-- **Entering a node is derived**, if the room covers the nodes that are not on the path. -/
theorem descends_enter (hpath : ∀ m ∈ path, g.contains m = true)
    (hroom : path.size + room = g.nodeCount)
    (hrest : Descends h c g path rest (enter h c g room path via n s w) w') :
    Descends h c g path (⟨via, n, s⟩ :: rest) w w' := by
  -- on the room; what comes after the node stays arbitrary, as the branches of a node need it
  induction room using Nat.strongRecOn generalizing path via n s rest w w' with
  | ind room ih =>
    by_cases hn : n ∈ path
    · rw [enter_of_mem_path hn] at hrest
      exact .back hn hrest
    by_cases hseen : s ∈ w.trace.statesAt n
    · rw [enter_of_seen hn hseen] at hrest
      exact .seen hn hseen hrest
    cases hbudget : overBudget c path.size w.trace.stateCount with
    | true =>
      rw [enter_of_overBudget hn hseen hbudget] at hrest
      exact .cut hn hseen hbudget hrest
    | false =>
      cases hnode : g.node? n with
      | none =>
        rw [enter_of_missing hn hseen hbudget hnode] at hrest
        exact .missing hn hseen hbudget hnode hrest
      | some node =>
        -- the node is not on the path, so the path has not used up the room
        have hcontains := Graph.contains_of_node? hnode
        have hshort := size_path_lt hpath hn hcontains
        obtain ⟨less, rfl⟩ : ∃ less, room = less + 1 := ⟨room - 1, by omega⟩
        have hlonger : ∀ m ∈ path.insert n, g.contains m = true := by
          intro m hm
          rcases mem_insert_path.mp hm with rfl | hm
          · exact hcontains
          · exact hpath m hm
        have hless : (path.insert n).size + less = g.nodeCount := by
          rw [size_insert_path hn]
          omega
        rw [enter_process hn hseen hbudget hnode] at hrest
        exact .expand hn hseen hbudget hnode
          (descends_foldl (ih less (Nat.lt_succ_self less) hlonger hless) _ _) hrest

/-- **Every execution is derived.** -/
theorem run_descends {start : Option NodeId} {e : NodeId} (he : g.resolve start = some e)
    (h : Hooks State Memory) (c : ExecutionConfig) (s : State) (m : Memory) :
    Descends h c g ∅ [⟨none, e, s⟩] ⟨{ entry := some e }, m⟩
      ⟨(run h c g start s m).1, (run h c g start s m).2⟩ := by
  rw [run, he]
  refine descends_enter (fun m hm => absurd hm Std.ExtTreeSet.not_mem_empty) ?_ .done
  rw [Std.ExtTreeSet.size_empty, Nat.zero_add]

end Search

/-! ### The machine -/

/-- What a machine has to do: enter a node at a depth, or leave a node. -/
inductive Frame (State : Type u) where
  | enter (entry : Entry State) (depth : Nat)
  | leave (n : NodeId)

/-- The state of a machine: what it has to do, next frame first, the nodes it has entered and not
left, and the execution so far. -/
structure Machine (State : Type u) (Memory : Type v) where
  stack : List (Frame State)
  path : NodeSet
  walk : Walk State Memory

namespace Machine

variable [DecidableEq State] (h : Hooks State Memory) (c : ExecutionConfig) (g : Graph)

/-- Takes the next frame from the stack. A node that is processed is put back to be left, below the
targets of its branches. There is no step from an empty stack. -/
def step? : Machine State Memory → Option (Machine State Memory)
  | ⟨[], _, _⟩ => none
  | ⟨.leave n :: stack, path, w⟩ => some ⟨stack, path.erase n, w⟩
  | ⟨.enter ⟨via, n, s⟩ depth :: stack, path, w⟩ =>
    if path.contains n then some ⟨stack, path, { w with trace := w.trace.recordBackEdge via }⟩
    else if s ∈ w.trace.statesAt n then some ⟨stack, path, w⟩
    else if overBudget c depth w.trace.stateCount then
      some ⟨stack, path, { w with trace := { w.trace with truncated := true } }⟩
    else
      match g.node? n with
      | none => some ⟨stack, path, w⟩
      | some node =>
        let (branches, w) := process h g n node s w
        some ⟨branches.map (fun b => .enter b.entry (depth + 1)) ++ .leave n :: stack,
          path.insert n, w⟩

/-- A machine that is to enter the start, if that resolves. -/
def start (start : Option NodeId) (s : State) (m : Memory) : Machine State Memory where
  stack := (g.resolve start).toList.map fun e => .enter ⟨none, e, s⟩ 0
  path := ∅
  walk := ⟨{ entry := g.resolve start }, m⟩

/-- One step leads from the first machine to the second. -/
def Steps (M M' : Machine State Memory) : Prop :=
  M.step? h c g = some M'

/-- The machine comes to a stop, and is then as the second one is. -/
def EndsAs (M M' : Machine State Memory) : Prop :=
  ReflTransGen (Steps h c g) M M' ∧ M'.step? h c g = none

end Machine

section Machine

variable [DecidableEq State] {h : Hooks State Memory} {c : ExecutionConfig} {g : Graph}
  {path : NodeSet} {entries : List (Entry State)} {w w' : Walk State Memory}

/-- **The machine does what is derived**, and has then the rest of its stack left to do. Every frame
stands at the depth that the path before it has. -/
theorem Descends.steps (hd : Descends h c g path entries w w') (stack : List (Frame State)) :
    ReflTransGen (Machine.Steps h c g)
      ⟨entries.map (fun entry => .enter entry path.size) ++ stack, path, w⟩ ⟨stack, path, w'⟩ := by
  induction hd generalizing stack with
  | done => exact .refl
  | back hn _ ih =>
    refine .head ?_ (ih stack)
    have hpath := Std.ExtTreeSet.contains_iff_mem.mpr hn
    simp [Machine.Steps, Machine.step?, hpath]
  | seen hn hs _ ih =>
    refine .head ?_ (ih stack)
    simp [Machine.Steps, Machine.step?, hn, hs]
  | cut hn hs hbudget _ ih =>
    refine .head ?_ (ih stack)
    simp [Machine.Steps, Machine.step?, hn, hs, hbudget]
  | missing hn hs hbudget hnode _ ih =>
    refine .head ?_ (ih stack)
    simp [Machine.Steps, Machine.step?, hn, hs, hbudget, hnode]
  | @expand path via n s rest w w' w'' node hn hs hbudget hnode _ _ ihbranches ihrest =>
    let below := rest.map (fun entry => .enter entry path.size) ++ stack
    have hprocess : Machine.Steps h c g ⟨.enter ⟨via, n, s⟩ path.size :: below, path, w⟩
        ⟨(process h g n node s w).1.map (fun b => .enter b.entry (path.size + 1)) ++
          .leave n :: below, path.insert n, (process h g n node s w).2⟩ := by
      simp [Machine.Steps, Machine.step?, hn, hs, hbudget, hnode]
    have hbranches := ihbranches (.leave n :: below)
    rw [List.map_map, size_insert_path hn] at hbranches
    -- the node is left when its branches are done, and the path is as it was
    have hleave : Machine.Steps h c g ⟨.leave n :: below, path.insert n, w'⟩ ⟨below, path, w'⟩ := by
      simp [Machine.Steps, Machine.step?, erase_insert_path hn]
    exact .head hprocess (hbranches.trans (.head hleave (ihrest stack)))

/-- **The machine ends**, on every graph, under every configuration and with any hooks, and it ends
with what the execution gives. -/
theorem machine_ends (h : Hooks State Memory) (c : ExecutionConfig) (g : Graph)
    (start : Option NodeId) (s : State) (m : Memory) :
    (Machine.start g start s m).EndsAs h c g
      ⟨[], ∅, ⟨(run h c g start s m).1, (run h c g start s m).2⟩⟩ := by
  refine ⟨?_, rfl⟩
  cases he : g.resolve start with
  | none =>
    rw [Machine.start, run, he]
    exact .refl
  | some e =>
    have hsteps := (run_descends he h c s m).steps []
    rw [Std.ExtTreeSet.size_empty] at hsteps
    rw [Machine.start, he]
    exact hsteps

end Machine

end ProgramGraph.Execution
