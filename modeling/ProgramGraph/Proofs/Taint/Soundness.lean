import ProgramGraph.Proofs.Taint.Idempotence

/-!
# Everything that taint propagation finds is there

`analyze_sound` asks nothing of the graph, of the budget or of the entry: identifiers may be shared,
and the run may be truncated. What it marks was clean and lies behind a tainted node within reach,
what it finds is tainted, and it takes no mark away.

The invariant is `Run.Sound`, which every visit keeps. That a clean node never passes on the taint
of another node with its identifier is part of it, since a visited node spreads taint only if it is
tainted itself.
-/

namespace ProgramGraph.Taint

open Relation

namespace Run

variable {c : TaintConfig} {g : Graph} {e : NodeId} {r : Run}

/-- Sound is about what is found and not about how the run ended. -/
theorem Sound.stop (hs : r.Sound c g e) :
    Run.Sound c g e { r with found := { r.found with truncated := true } } :=
  ⟨hs.queue_reach, hs.marked_behind, hs.sources_tainted, hs.sources_spread, hs.taintedIds_iff⟩

theorem sound_go (he : g.contains e = true) (left : Nat) : (go c g left (start e)).Sound c g e :=
  go_keeps (fun _ _ _ hk hnext hs => hs.visit hk hnext) (fun _ hs => hs.stop) (kept_start he)
    sound_start left

end Run

/-- What a run finds is found by a sound one from the entry, or there is no entry and nothing is
found. -/
theorem exists_sound_propagate (c : TaintConfig) (g : Graph) (entry : Option NodeId) :
    (g.resolve entry = none ∧ propagate c g entry = ∅) ∨
      ∃ e r, g.resolve entry = some e ∧ propagate c g entry = r.found ∧ Run.Sound c g e r := by
  cases hr : g.resolve entry with
  | none =>
    refine Or.inl ⟨rfl, ?_⟩
    rw [propagate, hr]
  | some e =>
    obtain ⟨rfl, he⟩ := Graph.resolve_eq_some_iff.mp hr
    exact Or.inr ⟨e, _, rfl, Run.propagate_eq_go he, Run.sound_go he _⟩

/-- The tainted identifiers are those of the nodes found. -/
theorem mem_taintedIds_propagate_iff {c : TaintConfig} {g : Graph} {entry : Option NodeId}
    {id : String} : id ∈ (propagate c g entry).taintedIds ↔
      ∃ m ∈ (propagate c g entry).sources, g.idOf m = id := by
  obtain ⟨-, hempty⟩ | ⟨e, r, -, hfound, hs⟩ := exists_sound_propagate c g entry
  · rw [hempty]
    refine iff_of_false Std.ExtTreeSet.not_mem_empty ?_
    rintro ⟨m, hm, -⟩
    exact Std.ExtTreeSet.not_mem_empty hm
  · rw [hfound]
    exact hs.taintedIds_iff id

/-- **Taint propagation is sound**, on every graph, from every entry and under every budget. A node
that a run marks did not carry the taint text and lies one or more edges behind a node within reach
of the entry that did. A node that it finds lies within reach, and carried the text or is marked.
The tainted identifiers are those of the nodes found. Afterwards exactly the nodes carry the text
that carried it before or are marked. -/
theorem analyze_sound (c : TaintConfig) (g : Graph) (entry : Option NodeId) :
    (∀ m, m ∈ (analyze c g entry).1.marked → carries c g m = false ∧
      ∃ e, g.resolve entry = some e ∧
        ∃ t, ReflTransGen g.Leads e t ∧ carries c g t = true ∧ TransGen g.Leads t m) ∧
    (∀ m, m ∈ (analyze c g entry).1.sources →
      (∃ e, g.resolve entry = some e ∧ ReflTransGen g.Leads e m) ∧
        (carries c g m = true ∨ m ∈ (analyze c g entry).1.marked)) ∧
    (∀ id, id ∈ (analyze c g entry).1.taintedIds ↔
      ∃ m ∈ (analyze c g entry).1.sources, g.idOf m = id) ∧
    (∀ m, carries c (analyze c g entry).2 m = true ↔
      carries c g m = true ∨ m ∈ (analyze c g entry).1.marked) := by
  have hids : ∀ id, id ∈ (propagate c g entry).taintedIds ↔
      ∃ m ∈ (propagate c g entry).sources, g.idOf m = id := fun _ => mem_taintedIds_propagate_iff
  rw [analyze]
  obtain ⟨-, hempty⟩ | ⟨e, r, hentry, hfound, hs⟩ := exists_sound_propagate c g entry
  · -- without an entry nothing is found, and nothing is written
    have hnone : ∀ {m : NodeId}, m ∉ (∅ : NodeSet) := Std.ExtTreeSet.not_mem_empty
    rw [hempty] at hids ⊢
    refine ⟨fun m hm => absurd hm hnone, fun m hm => absurd hm hnone, hids, fun m => ?_⟩
    rw [carries_writeMarks]
    exact or_congr_right (and_iff_left_of_imp fun hm => absurd hm hnone)
  · rw [hfound] at hids ⊢
    rw [hentry]
    refine ⟨fun m hm => ?_, fun m hm => ?_, hids, fun m => hs.carries_writeMarks_iff⟩
    · obtain ⟨hclean, hbehind⟩ := hs.marked_behind m hm
      exact ⟨hclean, e, rfl, hbehind⟩
    · obtain ⟨hreach, hT⟩ := hs.sources_tainted m hm
      exact ⟨⟨e, rfl, hreach⟩, hT⟩

/-- A run among twins that the budget cuts off before it visits the fourth node, which is marked by
then under the identifier of a clean node. -/
theorem analyze_sound_twins :
    let c : TaintConfig := { maxVisits := some 4 }
    let r := (analyze c twins (some ⟨0⟩)).1
    r.truncated = true ∧ ⟨3⟩ ∈ r.marked ∧ ⟨2⟩ ∈ r.sources ∧
      (∃ t, ReflTransGen twins.Leads ⟨0⟩ t ∧ carries c twins t = true ∧
        TransGen twins.Leads t ⟨3⟩) ∧
      "B" ∈ r.taintedIds ∧ carries c (analyze c twins (some ⟨0⟩)).2 ⟨3⟩ = true := by
  intro c r
  obtain ⟨hmarked, -, hids, hcarries⟩ := analyze_sound c twins (some ⟨0⟩)
  have hmark : ⟨3⟩ ∈ r.marked := by decide
  have hsource : ⟨2⟩ ∈ r.sources := by decide
  obtain ⟨-, e, he, hbehind⟩ := hmarked ⟨3⟩ hmark
  cases he
  exact ⟨by decide, hmark, hsource, hbehind, (hids "B").mpr ⟨⟨2⟩, hsource, by decide⟩,
    (hcarries ⟨3⟩).mpr (Or.inr hmark)⟩

end ProgramGraph.Taint
