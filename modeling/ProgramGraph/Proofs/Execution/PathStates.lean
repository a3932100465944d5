import ProgramGraph.Execution.Script
import ProgramGraph.Graph.Shape
import ProgramGraph.Proofs.Execution.Expansion

/-!
# States are carried along walks

Which states does an execution without budgets record, if its hooks keep no memory?

* `statesAt_run_feasible`: each is the end state of a feasible walk that repeats no node; each of
  its branches leads to a recorded state, unless its edge is a back edge; and where no cycle can be
  reached the recorded states are those of all feasible walks.
* `statesAt_run_or_cut`: on graphs with cycles a feasible walk that repeats no node can lose its
  state, but only in one way. At some step the same state had come to the node before, along another
  such walk that had passed the next node, and was not carried on there (`Cut`). It cannot happen if
  the states tell which nodes were passed.

Both follow from `recorded_or_cut`, an induction along a walk over recorded pairs, all of which are
expanded.
-/

namespace ProgramGraph.Execution

open Relation (ReflTransGen TransGen)

universe u

variable {State : Type u} {h : Hooks State Unit} {c : ExecutionConfig} {g : Graph}
  {entry n : NodeId} {initial s : State} {t : Trace State} {steps : List (EdgeId × NodeId)}

/-! ### Walks that lose their state -/

section Cut

variable (h : Hooks State Unit) (g : Graph) (entry : NodeId) (initial : State)

/-- A walk loses its state on the edge `e` from `n` to `m`: the state `s` it brings to `n` is
recorded, but not what goes on along the edge. The same state had come to `n` along another walk,
which repeats no node and had passed `m`, and for that walk the edge was a back edge. -/
structure CutAt (t : Trace State) (walk other : List (EdgeId × NodeId)) (n : NodeId) (s : State)
    (e : EdgeId) (m : NodeId) : Prop where
  feasible : Feasible h g entry initial walk n s
  feasible_other : Feasible h g entry initial other n s
  nodup_other : (walkNodes entry other).Nodup
  mem_other : m ∈ walkNodes entry other
  mem_outgoing : (e, m) ∈ g.outgoing n
  recorded : s ∈ t.statesAt n
  lost : ∃ s', passOn h g n e s = some s' ∧ s' ∉ t.statesAt m
  mem_backEdges : e ∈ t.backEdges

/-- Some step of the walk loses its state. -/
def Cut (t : Trace State) (steps : List (EdgeId × NodeId)) : Prop :=
  ∃ walk e m rest, steps = walk ++ (e, m) :: rest ∧
    ∃ other n s, CutAt h g entry initial t walk other n s e m

/-- Walks without repetition that bring equal states to a node have passed the same of its targets.
-/
def TellsPassed : Prop :=
  ∀ ⦃n s walk other⦄, Feasible h g entry initial walk n s → Feasible h g entry initial other n s →
    (walkNodes entry walk).Nodup → (walkNodes entry other).Nodup →
    ∀ m, g.Leads n m → m ∈ walkNodes entry other → m ∈ walkNodes entry walk

end Cut

/-- A walk that is cut stays so when it goes on. -/
theorem Cut.concat (hcut : Cut h g entry initial t steps) (e : EdgeId) (m : NodeId) :
    Cut h g entry initial t (steps ++ [(e, m)]) := by
  obtain ⟨walk, e', m', rest, rfl, hat⟩ := hcut
  exact ⟨walk, e', m', rest ++ [(e, m)], by simp, hat⟩

/-- **Every feasible walk keeps its state or is cut**, if the recorded pairs are expanded. The first
pair of the walk is recorded, and a pair that is recorded is expanded: the next step leads to a
recorded pair, or back onto the walk on which the pair was met first. -/
theorem recorded_or_cut (hinitial : initial ∈ t.statesAt entry)
    (hexpanded : ∀ n s, s ∈ t.statesAt n → Expanded h g entry initial t n s)
    (hwalk : Feasible h g entry initial steps n s) :
    s ∈ t.statesAt n ∨ Cut h g entry initial t steps := by
  induction hwalk with
  | start => exact Or.inl hinitial
  | @step steps n s e m s' hwalk hout hpass ih =>
    rcases ih with hs | hcut
    · obtain ⟨other, hother, hnodup, hbranches⟩ := hexpanded n s hs
      refine or_iff_not_imp_left.mpr fun hlost => ?_
      obtain ⟨hm, he⟩ := (hbranches e m s' hout hpass).resolve_left hlost
      exact ⟨steps, e, m, [], rfl, other, n, s, hwalk, hother, hnodup, hm, hout, hs,
        ⟨s', hpass, hlost⟩, he⟩
    · exact Or.inr (hcut.concat e m)

/-- Where a walk is cut there is a cycle. -/
theorem Cut.exists_cycle (hcut : Cut h g entry initial t steps) :
    ∃ n, ReflTransGen g.Leads entry n ∧ TransGen g.Leads n n := by
  obtain ⟨walk, e, m, rest, -, other, n, s, hat⟩ := hcut
  obtain ⟨hreach, hback⟩ := hat.feasible_other.reaches hat.mem_other
  have hleads : g.Leads n m := Graph.leads_iff.mpr ⟨e, hat.mem_outgoing⟩
  exact ⟨m, hreach, TransGen.tail' hback hleads⟩

/-- A walk that repeats no node is not cut if states tell which targets were passed. -/
theorem not_cut_of_tellsPassed (htells : TellsPassed h g entry initial)
    (hnodup : (walkNodes entry steps).Nodup) : ¬ Cut h g entry initial t steps := by
  rintro ⟨walk, e, m, rest, rfl, other, n, s, hat⟩
  rw [walkNodes_append, List.nodup_append] at hnodup
  obtain ⟨hfront, -, hdisjoint⟩ := hnodup
  have hleads : g.Leads n m := Graph.leads_iff.mpr ⟨e, hat.mem_outgoing⟩
  have hm : m ∈ walkNodes entry walk :=
    htells hat.feasible hat.feasible_other hfront hat.nodup_other m hleads hat.mem_other
  exact hdisjoint m hm m (List.mem_cons_self ..) rfl

/-- The branches of the one graph are those of the other, and carry the same states; the order in
which they are listed may differ. -/
structure SameBranches (h : Hooks State Unit) (g g' : Graph) : Prop where
  mem_outgoing_iff : ∀ n e m, (e, m) ∈ g'.outgoing n ↔ (e, m) ∈ g.outgoing n
  passOn_eq : ∀ n e s, passOn h g' n e s = passOn h g n e s

namespace SameBranches

variable {g' : Graph}

protected theorem symm (hsame : SameBranches h g g') : SameBranches h g' g where
  mem_outgoing_iff n e m := (hsame.mem_outgoing_iff n e m).symm
  passOn_eq n e s := (hsame.passOn_eq n e s).symm

/-- What is feasible in one of the graphs is so in the other. -/
theorem feasible (hsame : SameBranches h g g') (hwalk : Feasible h g entry initial steps n s) :
    Feasible h g' entry initial steps n s := by
  induction hwalk with
  | start => exact Feasible.start
  | step _ hout hpass ih =>
    refine ih.step ((hsame.mem_outgoing_iff _ _ _).mpr hout) ?_
    rwa [hsame.passOn_eq]

theorem feasible_iff (hsame : SameBranches h g g') :
    Feasible h g' entry initial steps n s ↔ Feasible h g entry initial steps n s :=
  ⟨hsame.symm.feasible, hsame.feasible⟩

end SameBranches

/-- Whether states tell what was passed depends on the branches only. -/
theorem TellsPassed.of_sameBranches {g' : Graph} (htells : TellsPassed h g entry initial)
    (hsame : SameBranches h g g') : TellsPassed h g' entry initial := by
  intro n s walk other hwalk hother hnodup hnodup' m hleads hm
  obtain ⟨e, hout⟩ := Graph.leads_iff.mp hleads
  have hleads' : g.Leads n m := Graph.leads_iff.mpr ⟨e, (hsame.mem_outgoing_iff n e m).mp hout⟩
  exact htells (hsame.feasible_iff.mp hwalk) (hsame.feasible_iff.mp hother) hnodup hnodup' m
    hleads' hm

/-! ### Executions without budgets -/

/-- Nodes whose identifier starts with `stem` write it into the state, and every branch is taken. -/
def stamp (key stem : String) : Hooks Bag Unit :=
  Hooks.pure (fun node s => Action.apply node s (.setId key stem)) fun _ s => some s

section Run

variable [DecidableEq State] {start : Option NodeId}

/-- **Recorded states are those of walks**, in an execution without budgets whose hooks keep no
memory. Every recorded state comes from a feasible walk that repeats no node; the branches of a
recorded state are recorded, unless their edge leads back; and where no cycle is within reach,
exactly the states of feasible walks are recorded. -/
theorem statesAt_run_feasible (h : Hooks State Unit) (c : ExecutionConfig) (g : Graph)
    (start : Option NodeId) (entry : NodeId) (initial : State) (hdepth : c.maxDepth = none)
    (hstates : c.maxStates = none) (hentry : g.resolve start = some entry) :
    let t := (run h c g start initial ()).1
    (∀ n s, s ∈ t.statesAt n →
      ∃ steps, Feasible h g entry initial steps n s ∧ (walkNodes entry steps).Nodup) ∧
    (∀ n s, s ∈ t.statesAt n → ∀ e m, (e, m) ∈ g.outgoing n → ∀ s', passOn h g n e s = some s' →
      s' ∈ t.statesAt m ∨ e ∈ t.backEdges) ∧
    (∀ e, e ∈ t.backEdges → LeadsBack h g entry initial e) ∧
    ((∀ n, ReflTransGen g.Leads entry n → ¬ TransGen g.Leads n n) → ∀ n s,
      s ∈ t.statesAt n ↔ ∃ steps, Feasible h g entry initial steps n s) := by
  intro t
  obtain ⟨hinitial, hexpanded, hback⟩ := run_spec hdepth hstates hentry h initial
  refine ⟨fun n s hs => ?_, fun n s hs e m hout s' hpass => ?_, hback,
    fun hacyclic n s => ⟨fun hs => ?_, ?_⟩⟩
  · obtain ⟨steps, hwalk, hnodup, -⟩ := hexpanded n s hs
    exact ⟨steps, hwalk, hnodup⟩
  · obtain ⟨_, -, -, hbranches⟩ := hexpanded n s hs
    exact (hbranches e m s' hout hpass).imp_right And.right
  · obtain ⟨steps, hwalk, -⟩ := hexpanded n s hs
    exact ⟨steps, hwalk⟩
  · rintro ⟨steps, hwalk⟩
    refine (recorded_or_cut hinitial hexpanded hwalk).resolve_right fun hcut => ?_
    obtain ⟨m, hreach, hcycle⟩ := hcut.exists_cycle
    exact hacyclic m hreach hcycle

/-- A fan with two middle nodes, each of which stamps the state: both stamps come to the last node.
-/
theorem statesAt_run_feasible_fan :
    let h := stamp "from" "n"
    let c : ExecutionConfig := {}
    let g := Graph.addShape ∅ .fan 4 "n"
    c.maxDepth = none ∧ c.maxStates = none ∧ g.resolve (some ⟨0⟩) = some ⟨0⟩ ∧
      (∀ n, ReflTransGen g.Leads ⟨0⟩ n → ¬ TransGen g.Leads n n) ∧
      (∅ : Bag).set "from" "n1" ∈ (run h c g (some ⟨0⟩) ∅ ()).1.statesAt ⟨3⟩ ∧
      (∅ : Bag).set "from" "n2" ∈ (run h c g (some ⟨0⟩) ∅ ()).1.statesAt ⟨3⟩ := by
  intro h c g
  have hup : ∀ m n, g.Leads m n → m.index < n.index := by
    have hall : ∀ m ∈ g.nodeIds, ∀ n ∈ g.successors m, m.index < n.index := by decide
    intro m n hleads
    exact hall m (Graph.mem_nodeIds.mpr (Graph.contains_of_adjacent_mem (d := .forward) hleads)) n
      hleads
  have hacyclic : ∀ n, ReflTransGen g.Leads ⟨0⟩ n → ¬ TransGen g.Leads n n := by
    intro n _ hcycle
    have hlt : TransGen (· < ·) n.index n.index := hcycle.lift NodeId.index hup
    rw [Relation.transGen_eq_self] at hlt
    exact lt_irrefl n.index hlt
  have hfirst : Feasible h g ⟨0⟩ ∅ [(⟨0⟩, ⟨1⟩)] ⟨1⟩ ((∅ : Bag).set "from" "n0") :=
    Feasible.start.step (by decide) (by decide +kernel)
  have hsecond : Feasible h g ⟨0⟩ ∅ [(⟨2⟩, ⟨2⟩)] ⟨2⟩ ((∅ : Bag).set "from" "n0") :=
    Feasible.start.step (by decide) (by decide +kernel)
  obtain ⟨-, -, -, hexact⟩ :=
    statesAt_run_feasible h c g (some ⟨0⟩) ⟨0⟩ ∅ rfl rfl (by decide)
  refine ⟨rfl, rfl, by decide, hacyclic, ?_, ?_⟩
  · exact (hexact hacyclic ⟨3⟩ _).mpr ⟨_, hfirst.step (e := ⟨1⟩) (by decide) (by decide +kernel)⟩
  · exact (hexact hacyclic ⟨3⟩ _).mpr ⟨_, hsecond.step (e := ⟨3⟩) (by decide) (by decide +kernel)⟩

/-- If states tell which targets were passed, the states of all walks without repetition are
recorded. -/
theorem mem_statesAt_run_of_tellsPassed (hdepth : c.maxDepth = none) (hstates : c.maxStates = none)
    (hentry : g.resolve start = some entry) (htells : TellsPassed h g entry initial) :
    s ∈ (run h c g start initial ()).1.statesAt n ↔
      ∃ steps, Feasible h g entry initial steps n s ∧ (walkNodes entry steps).Nodup := by
  obtain ⟨hinitial, hexpanded, -⟩ := run_spec hdepth hstates hentry h initial
  constructor
  · intro hs
    obtain ⟨steps, hwalk, hnodup, -⟩ := hexpanded n s hs
    exact ⟨steps, hwalk, hnodup⟩
  · rintro ⟨steps, hwalk, hnodup⟩
    exact (recorded_or_cut hinitial hexpanded hwalk).resolve_right
      (not_cut_of_tellsPassed htells hnodup)

/-- **A walk keeps its state or is cut**, on every graph. If states tell which targets were passed,
no walk without repetition is cut, so that exactly the states of these walks are recorded, in
whatever order the outgoing edges are listed. -/
theorem statesAt_run_or_cut (h : Hooks State Unit) (c : ExecutionConfig) (g : Graph)
    (start : Option NodeId) (entry : NodeId) (initial : State) (hdepth : c.maxDepth = none)
    (hstates : c.maxStates = none) (hentry : g.resolve start = some entry) :
    let t := (run h c g start initial ()).1
    (∀ steps n s, Feasible h g entry initial steps n s →
      s ∈ t.statesAt n ∨ Cut h g entry initial t steps) ∧
    (TellsPassed h g entry initial →
      (∀ n s, s ∈ t.statesAt n ↔
        ∃ steps, Feasible h g entry initial steps n s ∧ (walkNodes entry steps).Nodup) ∧
      ∀ g', g'.resolve start = some entry → SameBranches h g g' → ∀ n s,
        s ∈ (run h c g' start initial ()).1.statesAt n ↔ s ∈ t.statesAt n) := by
  intro t
  obtain ⟨hinitial, hexpanded, -⟩ := run_spec hdepth hstates hentry h initial
  refine ⟨fun steps n s => recorded_or_cut hinitial hexpanded, fun htells => ?_⟩
  have hexact := fun n s =>
    mem_statesAt_run_of_tellsPassed (n := n) (s := s) hdepth hstates hentry htells
  refine ⟨hexact, fun g' hentry' hsame n s => ?_⟩
  rw [mem_statesAt_run_of_tellsPassed hdepth hstates hentry' (htells.of_sameBranches hsame), hexact]
  simp only [hsame.feasible_iff]

end Run

/-- Each node that is left is written down, and every branch is taken. -/
def diary : Hooks (List String) Unit :=
  Hooks.pure (fun node s => s ++ [node.id]) fun _ s => some s

/-- A diary lists the identifiers of the nodes that were left behind. -/
theorem Feasible.map_idOf_walkNodes {s : List String}
    (hwalk : Feasible diary g entry [] steps n s) :
    (walkNodes entry steps).map g.idOf = s ++ [g.idOf n] := by
  induction hwalk with
  | start => rfl
  | @step steps n s e m s' hwalk hout hpass ih =>
    have hs' : s' = s ++ [g.idOf n] := by
      simp only [passOn, diary, Hooks.pure, Option.bind_eq_some_iff, Option.some.injEq] at hpass
      obtain ⟨node, hnode, -, -, heq⟩ := hpass
      rw [← heq, Graph.idOf, hnode]
      rfl
    rw [walkNodes_append, List.map_append, ih, hs']
    rfl

/-- A diary tells which nodes were passed, if identifiers are unique. -/
theorem tellsPassed_diary (hentry : g.contains entry = true)
    (hnodup : (g.nodeIds.map g.idOf).Nodup) : TellsPassed diary g entry [] := by
  intro n s walk other hwalk hother _ _ m _ hm
  have hid : g.idOf m ∈ (walkNodes entry walk).map g.idOf := by
    rw [hwalk.map_idOf_walkNodes, ← hother.map_idOf_walkNodes]
    exact List.mem_map_of_mem hm
  obtain ⟨m', hm', heq⟩ := List.mem_map.mp hid
  have hmem : ∀ {steps s p}, Feasible diary g entry [] steps n s → p ∈ walkNodes entry steps →
      p ∈ g.nodeIds := fun hwalk hp => Graph.mem_nodeIds.mpr (hwalk.contains hentry hp)
  rwa [← List.inj_on_of_nodup_map hnodup (hmem hwalk hm') (hmem hother hm) heq]

/-- Two nodes that lead to each other, both behind the entry. -/
def crossing : Graph :=
  [(0, 1), (0, 2), (1, 2), (2, 1)].foldl
    (fun g (m, n) => (g.connect s!"e{g.edgeCount}" ⟨m⟩ ⟨n⟩).2)
    (["E", "A", "B"].foldl (fun g id => (g.addNode id).2) ∅)

/-- The walk to the last node and from there to the second, if only the last node stamps the state.
-/
theorem feasible_stamp_crossing : Feasible (stamp "via" "B") crossing ⟨0⟩ ∅
    [(⟨1⟩, ⟨2⟩), (⟨3⟩, ⟨1⟩)] ⟨1⟩ ((∅ : Bag).set "via" "B") := by
  have hfirst : Feasible (stamp "via" "B") crossing ⟨0⟩ ∅ [(⟨1⟩, ⟨2⟩)] ⟨2⟩ ∅ :=
    Feasible.start.step (by decide) (by decide +kernel)
  exact hfirst.step (by decide) (by decide +kernel)

/-- That walk is cut; with a diary it is not. -/
theorem statesAt_run_or_cut_crossing :
    let h := stamp "via" "B"
    let c : ExecutionConfig := {}
    c.maxDepth = none ∧ c.maxStates = none ∧ crossing.resolve (some ⟨0⟩) = some ⟨0⟩ ∧
      Cut h crossing ⟨0⟩ ∅ (run h c crossing (some ⟨0⟩) ∅ ()).1 [(⟨1⟩, ⟨2⟩), (⟨3⟩, ⟨1⟩)] ∧
      TellsPassed diary crossing ⟨0⟩ [] ∧
      ["E", "B"] ∈ (run diary c crossing (some ⟨0⟩) [] ()).1.statesAt ⟨1⟩ := by
  intro h c
  have hfirst : Feasible diary crossing ⟨0⟩ [] [(⟨1⟩, ⟨2⟩)] ⟨2⟩ ["E"] :=
    Feasible.start.step (by decide) (by decide +kernel)
  have hsecond : Feasible diary crossing ⟨0⟩ [] [(⟨1⟩, ⟨2⟩), (⟨3⟩, ⟨1⟩)] ⟨1⟩ ["E", "B"] :=
    hfirst.step (by decide) (by decide +kernel)
  have htells : TellsPassed diary crossing ⟨0⟩ [] := tellsPassed_diary (by decide) (by decide)
  obtain ⟨hcut, -⟩ := statesAt_run_or_cut h c crossing (some ⟨0⟩) ⟨0⟩ ∅ rfl rfl (by decide)
  obtain ⟨-, hexact⟩ := statesAt_run_or_cut diary c crossing (some ⟨0⟩) ⟨0⟩ [] rfl rfl (by decide)
  refine ⟨rfl, rfl, by decide, ?_, htells, ?_⟩
  · exact (hcut _ _ _ feasible_stamp_crossing).resolve_left (by decide +kernel)
  · exact ((hexact htells).1 ⟨1⟩ _).mpr ⟨_, hsecond, by decide⟩

/-- The state of that walk is not recorded, although the walk repeats no node; it is, if the entry
lists its edges the other way round. -/
theorem notMem_statesAt_run_crossing :
    let h := stamp "via" "B"
    let c : ExecutionConfig := {}
    let s := (∅ : Bag).set "via" "B"
    let turned := crossing.modifyNode ⟨0⟩ fun node =>
      { node with outgoing := node.outgoing.reverse }
    c.maxDepth = none ∧ c.maxStates = none ∧
      Feasible h crossing ⟨0⟩ ∅ [(⟨1⟩, ⟨2⟩), (⟨3⟩, ⟨1⟩)] ⟨1⟩ s ∧
      (walkNodes ⟨0⟩ [(⟨1⟩, ⟨2⟩), (⟨3⟩, ⟨1⟩)]).Nodup ∧
      s ∉ (run h c crossing (some ⟨0⟩) ∅ ()).1.statesAt ⟨1⟩ ∧
      s ∈ (run h c turned (some ⟨0⟩) ∅ ()).1.statesAt ⟨1⟩ := by
  intro h c s turned
  exact ⟨rfl, rfl, feasible_stamp_crossing, by decide, by decide +kernel, by decide +kernel⟩

end ProgramGraph.Execution
