import Mathlib.Order.Bounds.Basic
import ProgramGraph.Proofs.Taint.Soundness

/-!
# Runs from several entries

Each run sees the marks of the runs before it, so it starts from a graph that depends on their
order. The outcome does not (`analyzeMany_exact`): where identifiers differ throughout the graph,
the runs together mark the clean nodes behind a tainted node within reach of some entry, and find
these and the tainted nodes within reach.

The reason is that the marks of a run are closed under edges. A node marked by an earlier run counts
as tainted for a later one, but what lies behind it carries the text already
(`clean_and_behind_analyze_iff`).
-/

namespace ProgramGraph

/-- Where an edge leads does not depend on properties. -/
theorem Graph.SameShape.leads_eq {g h : Graph} (hs : SameShape g h) : h.Leads = g.Leads := by
  funext m n
  rw [Leads, Leads, hs.successors_eq]

namespace Taint

open Relation

/-! ### Joining results -/

/-- What a joined result holds in one of its sets. -/
theorem mem_foldl_merge {α : Type} [Ord α] [Std.TransOrd α] [Std.LawfulEqOrd α]
    (part : Result → Std.ExtTreeSet α) (hpart : ∀ r s, part (r.merge s) = part r ∪ part s)
    {rs : List Result} {r : Result} {a : α} :
    a ∈ part (rs.foldl Result.merge r) ↔ a ∈ part r ∨ ∃ s ∈ rs, a ∈ part s := by
  induction rs generalizing r with
  | nil => simp
  | cons s rs ih =>
    rw [List.foldl_cons, ih, hpart, Std.ExtTreeSet.mem_union_iff, or_assoc]
    simp

section Many

variable {c : TaintConfig} {g : Graph} {entries : List NodeId} {m : NodeId}

theorem mem_marked_analyzeMany : m ∈ (analyzeMany c g entries).1.marked ↔
    ∃ r ∈ (analyzeEach c g entries).1, m ∈ r.marked := by
  refine (mem_foldl_merge Result.marked fun _ _ => rfl).trans (or_iff_right ?_)
  exact Std.ExtTreeSet.not_mem_empty

theorem mem_sources_analyzeMany : m ∈ (analyzeMany c g entries).1.sources ↔
    ∃ r ∈ (analyzeEach c g entries).1, m ∈ r.sources := by
  refine (mem_foldl_merge Result.sources fun _ _ => rfl).trans (or_iff_right ?_)
  exact Std.ExtTreeSet.not_mem_empty

theorem mem_taintedIds_analyzeMany {id : String} : id ∈ (analyzeMany c g entries).1.taintedIds ↔
    ∃ r ∈ (analyzeEach c g entries).1, id ∈ r.taintedIds := by
  refine (mem_foldl_merge Result.taintedIds fun _ _ => rfl).trans (or_iff_right ?_)
  exact Std.ExtTreeSet.not_mem_empty

end Many

/-! ### What is behind the tainted nodes within reach -/

section Behind

variable (c : TaintConfig) (g : Graph) (entries : List NodeId)

/-- The node carries the taint text and is within reach of an entry that resolves. -/
def SourceFrom (t : NodeId) : Prop :=
  carries c g t = true ∧ ∃ e ∈ entries, g.contains e = true ∧ ReflTransGen g.Leads e t

/-- The node lies one or more edges behind such a node. -/
def BehindSource (m : NodeId) : Prop :=
  ∃ t, SourceFrom c g entries t ∧ TransGen g.Leads t m

variable {c g} {e m : NodeId}

theorem sourceFrom_cons_iff :
    SourceFrom c g (e :: entries) m ↔ SourceFrom c g [e] m ∨ SourceFrom c g entries m := by
  simp only [SourceFrom, List.mem_cons, List.not_mem_nil, or_false, exists_eq_or_imp,
    exists_eq_left, ← and_or_left]

theorem behindSource_cons_iff :
    BehindSource c g (e :: entries) m ↔ BehindSource c g [e] m ∨ BehindSource c g entries m := by
  simp only [BehindSource, sourceFrom_cons_iff entries, or_and_right, exists_or]

/-- What lies behind a node behind a source lies behind that source. -/
theorem BehindSource.trans {entries : List NodeId} {t : NodeId} (ht : BehindSource c g entries t)
    (htm : TransGen g.Leads t m) : BehindSource c g entries m := by
  obtain ⟨s, hs, hst⟩ := ht
  exact ⟨s, hs, hst.trans htm⟩

end Behind

/-! ### One run -/

section One

variable {c : TaintConfig} {g : Graph} {e m : NodeId}

/-- Identifiers differ throughout the graph. -/
def Identifies (g : Graph) : Prop :=
  (g.nodeIds.map g.idOf).Nodup

instance (g : Graph) : Decidable (Identifies g) :=
  inferInstanceAs (Decidable (List.Nodup _))

/-- Identifiers still differ after a run. -/
theorem Identifies.analyze (hid : Identifies g) (entry : Option NodeId) :
    Identifies (analyze c g entry).2 := by
  have hshape := sameShape_analyze c g entry
  rw [Identifies, hshape.nodeIds_eq, funext hshape.idOf_eq]
  exact hid

variable (hmax : c.maxVisits = none) (hid : Identifies g)

include hmax hid

/-- A run from an entry that need not resolve. -/
theorem mem_marked_propagate_some_iff : m ∈ (propagate c g (some e)).marked ↔
    carries c g m = false ∧ BehindSource c g [e] m := by
  by_cases he : g.contains e = true
  · rw [mem_marked_propagate_iff hmax he (identifiesReach_of_nodup hid he)]
    simp only [BehindSource, SourceFrom, List.mem_singleton, exists_eq_left, he, true_and]
    refine and_congr_right fun _ => exists_congr fun t => ?_
    rw [← and_assoc, and_comm (a := ReflTransGen g.Leads e t)]
  · have hresolve : g.resolve (some e) = none := by
      simpa [Graph.resolve] using he
    rw [propagate, hresolve]
    refine iff_of_false Std.ExtTreeSet.not_mem_empty ?_
    rintro ⟨-, t, ⟨-, e', he', hcontains, -⟩, -⟩
    rw [List.mem_singleton.mp he'] at hcontains
    exact he hcontains

theorem mem_sources_propagate_some_iff : m ∈ (propagate c g (some e)).sources ↔
    SourceFrom c g [e] m ∨ m ∈ (propagate c g (some e)).marked := by
  by_cases he : g.contains e = true
  · rw [mem_sources_propagate_iff hmax he (identifiesReach_of_nodup hid he)]
    simp only [SourceFrom, List.mem_singleton, exists_eq_left, he, true_and]
    rw [and_comm]
  · have hresolve : g.resolve (some e) = none := by
      simpa [Graph.resolve] using he
    rw [propagate, hresolve]
    refine iff_of_false Std.ExtTreeSet.not_mem_empty ?_
    rintro (⟨-, e', he', hcontains, -⟩ | hm)
    · rw [List.mem_singleton.mp he'] at hcontains
      exact he hcontains
    · exact Std.ExtTreeSet.not_mem_empty hm

/-- After a run the taint text is on the nodes that had it and on those behind a source. -/
theorem carries_analyze_some_iff : carries c (analyze c g (some e)).2 m = true ↔
    carries c g m = true ∨ BehindSource c g [e] m := by
  have hcontains : m ∈ (propagate c g (some e)).marked → g.contains m = true := by
    intro hm
    obtain ⟨-, t, -, hbehind⟩ := (mem_marked_propagate_some_iff hmax hid).mp hm
    obtain ⟨p, -, hlead⟩ := TransGen.tail'_iff.mp hbehind
    exact Graph.contains_of_mem_adjacent (d := .forward) hlead
  rw [analyze, carries_writeMarks, and_iff_left_of_imp hcontains,
    mem_marked_propagate_some_iff hmax hid]
  cases carries c g m <;> simp

end One

/-! ### A run and the runs after it -/

section Later

variable {c : TaintConfig} {g : Graph} {entries : List NodeId} {e m : NodeId}
  (hmax : c.maxVisits = none) (hid : Identifies g)

include hmax hid

/-- What carries the text within reach after a run carried it before, or lies behind a node that
did. -/
theorem sourceFrom_analyze_iff : SourceFrom c (analyze c g (some e)).2 entries m ↔
    SourceFrom c g entries m ∨ BehindSource c g [e] m ∧
      ∃ e' ∈ entries, g.contains e' = true ∧ ReflTransGen g.Leads e' m := by
  have hshape := sameShape_analyze c g (some e)
  simp only [SourceFrom, carries_analyze_some_iff hmax hid, hshape.leads_eq, hshape.contains_eq,
    or_and_right]

/-- **A later run adds only what it would have added first**: behind a node that an earlier run
marked everything carries the text already. -/
theorem clean_and_behind_analyze_iff :
    carries c (analyze c g (some e)).2 m = false ∧
        BehindSource c (analyze c g (some e)).2 entries m ↔
      carries c g m = false ∧ ¬ BehindSource c g [e] m ∧ BehindSource c g entries m := by
  rw [← Bool.not_eq_true, carries_analyze_some_iff hmax hid, not_or, Bool.not_eq_true, and_assoc]
  refine and_congr_right fun _ => and_congr_right fun hnot => ?_
  simp only [BehindSource, sourceFrom_analyze_iff hmax hid,
    (sameShape_analyze c g (some e)).leads_eq]
  constructor
  · rintro ⟨t, ht | ⟨ht, -⟩, htm⟩
    · exact ⟨t, ht, htm⟩
    · exact absurd (BehindSource.trans ht htm) hnot
  · rintro ⟨t, ht, htm⟩
    exact ⟨t, Or.inl ht, htm⟩

end Later

/-! ### All runs -/

section All

variable {c : TaintConfig} {g : Graph} {m : NodeId}

/-- The runs together mark the nodes behind a source of any entry, each as far as it was not tainted
at the start. -/
theorem exists_marked_analyzeEach_iff (hmax : c.maxVisits = none) (hid : Identifies g)
    (entries : List NodeId) : (∃ r ∈ (analyzeEach c g entries).1, m ∈ r.marked) ↔
      carries c g m = false ∧ BehindSource c g entries m := by
  induction entries generalizing g with
  | nil => simp [analyzeEach, BehindSource, SourceFrom]
  | cons e entries ih =>
    have hcons : (analyzeEach c g (e :: entries)).1 =
        propagate c g (some e) :: (analyzeEach c (analyze c g (some e)).2 entries).1 := rfl
    rw [hcons, List.exists_mem_cons_iff, mem_marked_propagate_some_iff hmax hid,
      ih (hid.analyze (some e)), clean_and_behind_analyze_iff hmax hid,
      behindSource_cons_iff entries]
    tauto

theorem exists_sources_analyzeEach_iff (hmax : c.maxVisits = none) (hid : Identifies g)
    (entries : List NodeId) : (∃ r ∈ (analyzeEach c g entries).1, m ∈ r.sources) ↔
      SourceFrom c g entries m ∨ carries c g m = false ∧ BehindSource c g entries m := by
  induction entries generalizing g with
  | nil => simp [analyzeEach, BehindSource, SourceFrom]
  | cons e entries ih =>
    have hcons : (analyzeEach c g (e :: entries)).1 =
        propagate c g (some e) :: (analyzeEach c (analyze c g (some e)).2 entries).1 := rfl
    rw [hcons, List.exists_mem_cons_iff, mem_sources_propagate_some_iff hmax hid,
      mem_marked_propagate_some_iff hmax hid, ih (hid.analyze (some e)),
      clean_and_behind_analyze_iff hmax hid, sourceFrom_analyze_iff hmax hid,
      behindSource_cons_iff entries, sourceFrom_cons_iff entries]
    constructor
    · rintro ((hsource | hmarked) | (hsource | ⟨hbehind, hreach⟩) | ⟨hclean, -, hbehind⟩)
      · exact Or.inl (Or.inl hsource)
      · exact Or.inr ⟨hmarked.1, Or.inl hmarked.2⟩
      · exact Or.inl (Or.inr hsource)
      · -- found by a later run because the first one marked it, unless it carried the text before
        cases hcarries : carries c g m with
        | false => exact Or.inr ⟨rfl, Or.inl hbehind⟩
        | true => exact Or.inl (Or.inr ⟨hcarries, hreach⟩)
      · exact Or.inr ⟨hclean, Or.inr hbehind⟩
    · rintro ((hsource | hsource) | ⟨hclean, hbehind⟩)
      · exact Or.inl (Or.inl hsource)
      · exact Or.inr (Or.inl (Or.inl hsource))
      · by_cases hfirst : BehindSource c g [e] m
        · exact Or.inl (Or.inr ⟨hclean, hfirst⟩)
        · exact Or.inr (Or.inr ⟨hclean, hfirst, hbehind.resolve_left hfirst⟩)

theorem exists_taintedIds_analyzeEach_iff (entries : List NodeId) {id : String} :
    (∃ r ∈ (analyzeEach c g entries).1, id ∈ r.taintedIds) ↔
      ∃ m, (∃ r ∈ (analyzeEach c g entries).1, m ∈ r.sources) ∧ g.idOf m = id := by
  induction entries generalizing g with
  | nil => simp [analyzeEach]
  | cons e entries ih =>
    have hcons : (analyzeEach c g (e :: entries)).1 =
        propagate c g (some e) :: (analyzeEach c (analyze c g (some e)).2 entries).1 := rfl
    simp only [hcons, List.exists_mem_cons_iff, ih, mem_taintedIds_propagate_iff,
      (sameShape_analyze c g (some e)).idOf_eq, or_and_right, exists_or]

/-- The runs write on the nodes that one of them marked. -/
theorem analyzeEach_snd_eq (entries : List NodeId) : (analyzeEach c g entries).2 =
    g.setProperties ((analyzeEach c g entries).1.flatMap fun r => r.marked.toList) c.key
      c.value := by
  induction entries generalizing g with
  | nil => rfl
  | cons e entries ih =>
    have hcons : analyzeEach c g (e :: entries) =
        (propagate c g (some e) :: (analyzeEach c (analyze c g (some e)).2 entries).1,
          (analyzeEach c (analyze c g (some e)).2 entries).2) := rfl
    rw [hcons, ih, List.flatMap_cons, Graph.setProperties_append]
    rfl

/-- The graph after all runs is the one that the joined result describes. -/
theorem analyzeMany_snd_eq (entries : List NodeId) :
    (analyzeMany c g entries).2 = writeMarks c g (analyzeMany c g entries).1 := by
  rw [writeMarks]
  refine (analyzeEach_snd_eq entries).trans (Graph.setProperties_congr g (fun n => ?_) _ _)
  rw [Std.ExtTreeSet.mem_toList, mem_marked_analyzeMany]
  simp only [List.mem_flatMap, Std.ExtTreeSet.mem_toList]

end All

/-! ### The joined result -/

section Joined

variable {c : TaintConfig} {g : Graph} {entries entries' : List NodeId} {m : NodeId}

/-- Only which entries there are matters, not their order. -/
theorem sourceFrom_perm_iff (hperm : entries.Perm entries') :
    SourceFrom c g entries m ↔ SourceFrom c g entries' m := by
  simp only [SourceFrom, hperm.mem_iff]

theorem behindSource_perm_iff (hperm : entries.Perm entries') :
    BehindSource c g entries m ↔ BehindSource c g entries' m := by
  simp only [BehindSource, sourceFrom_perm_iff hperm]

variable (hmax : c.maxVisits = none) (hid : Identifies g)

include hmax hid

theorem mem_marked_analyzeMany_iff : m ∈ (analyzeMany c g entries).1.marked ↔
    carries c g m = false ∧ BehindSource c g entries m :=
  mem_marked_analyzeMany.trans (exists_marked_analyzeEach_iff hmax hid entries)

theorem mem_sources_analyzeMany_iff : m ∈ (analyzeMany c g entries).1.sources ↔
    SourceFrom c g entries m ∨ m ∈ (analyzeMany c g entries).1.marked := by
  rw [mem_marked_analyzeMany_iff hmax hid, mem_sources_analyzeMany]
  exact exists_sources_analyzeEach_iff hmax hid entries

/-- The order of the entries changes neither the graph nor what is found. -/
theorem analyzeMany_perm (hperm : entries.Perm entries') :
    (analyzeMany c g entries).2 = (analyzeMany c g entries').2 ∧
      (analyzeMany c g entries).1.marked = (analyzeMany c g entries').1.marked ∧
      (analyzeMany c g entries).1.sources = (analyzeMany c g entries').1.sources ∧
      (analyzeMany c g entries).1.taintedIds = (analyzeMany c g entries').1.taintedIds := by
  have hmarked : (analyzeMany c g entries).1.marked = (analyzeMany c g entries').1.marked := by
    refine Std.ExtTreeSet.ext_mem fun m => ?_
    rw [mem_marked_analyzeMany_iff hmax hid, mem_marked_analyzeMany_iff hmax hid,
      behindSource_perm_iff hperm]
  have hsources : (analyzeMany c g entries).1.sources = (analyzeMany c g entries').1.sources := by
    refine Std.ExtTreeSet.ext_mem fun m => ?_
    rw [mem_sources_analyzeMany_iff hmax hid, mem_sources_analyzeMany_iff hmax hid, hmarked,
      sourceFrom_perm_iff hperm]
  refine ⟨?_, hmarked, hsources, Std.ExtTreeSet.ext_mem fun id => ?_⟩
  · rw [analyzeMany_snd_eq, analyzeMany_snd_eq, writeMarks, writeMarks, hmarked]
  · rw [mem_taintedIds_analyzeMany, mem_taintedIds_analyzeMany, exists_taintedIds_analyzeEach_iff,
      exists_taintedIds_analyzeEach_iff]
    simp only [← mem_sources_analyzeMany, hsources]

/-- After all runs the taint text is on the nodes that had it and on those behind a source. -/
theorem carries_analyzeMany_iff : carries c (analyzeMany c g entries).2 m = true ↔
    carries c g m = true ∨ BehindSource c g entries m := by
  have hcontains : m ∈ (analyzeMany c g entries).1.marked → g.contains m = true := by
    intro hm
    obtain ⟨-, t, -, hbehind⟩ := (mem_marked_analyzeMany_iff hmax hid).mp hm
    obtain ⟨p, -, hlead⟩ := TransGen.tail'_iff.mp hbehind
    exact Graph.contains_of_mem_adjacent (d := .forward) hlead
  rw [analyzeMany_snd_eq, carries_writeMarks, and_iff_left_of_imp hcontains,
    mem_marked_analyzeMany_iff hmax hid]
  cases carries c g m <;> simp

end Joined

/-! ### Runs from all tainted nodes -/

/-- The set contains the tainted nodes and, with a node, the targets of its edges. -/
def Absorbs (c : TaintConfig) (g : Graph) (S : Set NodeId) : Prop :=
  (∀ m, carries c g m = true → m ∈ S) ∧ ∀ m ∈ S, ∀ t ∈ g.successors m, t ∈ S

/-- A set that absorbs contains whatever lies behind one of its nodes. -/
theorem Absorbs.mem_of_behind {c : TaintConfig} {g : Graph} {S : Set NodeId} {t m : NodeId}
    (hS : Absorbs c g S) (ht : t ∈ S) (hbehind : TransGen g.Leads t m) : m ∈ S := by
  induction hbehind with
  | single hlead => exact hS.2 t ht _ hlead
  | tail _ hlead ih => exact hS.2 _ ih _ hlead

/-- Every tainted node is an entry, so what is tainted in the end is closed under edges. -/
theorem isLeast_absorbs_propagateAll {c : TaintConfig} {g : Graph} (hmax : c.maxVisits = none)
    (hid : Identifies g) :
    IsLeast {S | Absorbs c g S} {m | carries c (propagateAll c g).2 m = true} := by
  have hiff : ∀ m, carries c (propagateAll c g).2 m = true ↔
      carries c g m = true ∨ BehindSource c g (taintedNodes c g) m := fun m =>
    carries_analyzeMany_iff hmax hid
  refine ⟨⟨fun m hm => (hiff m).mpr (Or.inl hm), fun m hm t ht => ?_⟩, fun S hS m hm => ?_⟩
  · refine (hiff t).mpr (Or.inr ?_)
    rcases (hiff m).mp hm with hcarries | hbehind
    · have hm : g.contains m = true := Graph.contains_of_adjacent_mem (d := .forward) ht
      have hentry : m ∈ taintedNodes c g :=
        List.mem_filter.mpr ⟨Graph.mem_nodeIds.mpr hm, hcarries⟩
      exact ⟨m, ⟨hcarries, m, hentry, hm, ReflTransGen.refl⟩, TransGen.single ht⟩
    · exact hbehind.trans (TransGen.single ht)
  · rcases (hiff m).mp hm with hcarries | ⟨t, ⟨hcarries, -⟩, hbehind⟩
    · exact hS.1 m hcarries
    · exact Absorbs.mem_of_behind hS (hS.1 t hcarries) hbehind

/-- **Runs from several entries do not depend on their order.** Let identifiers differ throughout
the graph. Runs without budget from a list of entries mark the clean nodes that lie one or more
edges behind a tainted node within reach of an entry, and find these and the tainted nodes within
reach. So the graph that they leave and what they mark and find are the same for every order of the
entries. Runs from all tainted nodes leave as tainted the least set of nodes that contains these and
is closed under edges. -/
theorem analyzeMany_exact (c : TaintConfig) (g : Graph) (hmax : c.maxVisits = none)
    (hid : Identifies g) :
    (∀ entries m,
      (m ∈ (analyzeMany c g entries).1.marked ↔
        carries c g m = false ∧ BehindSource c g entries m) ∧
      (m ∈ (analyzeMany c g entries).1.sources ↔
        SourceFrom c g entries m ∨ m ∈ (analyzeMany c g entries).1.marked)) ∧
    (∀ entries entries', entries.Perm entries' →
      (analyzeMany c g entries).2 = (analyzeMany c g entries').2 ∧
      (analyzeMany c g entries).1.marked = (analyzeMany c g entries').1.marked ∧
      (analyzeMany c g entries).1.sources = (analyzeMany c g entries').1.sources ∧
      (analyzeMany c g entries).1.taintedIds = (analyzeMany c g entries').1.taintedIds) ∧
    IsLeast {S | Absorbs c g S} {m | carries c (propagateAll c g).2 m = true} :=
  ⟨fun _ _ => ⟨mem_marked_analyzeMany_iff hmax hid, mem_sources_analyzeMany_iff hmax hid⟩,
    fun _ _ => analyzeMany_perm hmax hid, isLeast_absorbs_propagateAll hmax hid⟩

/-- A chain of four nodes, of which the first and the third are tainted, entered at both and at a
handle that does not resolve. The last node is marked by the first run, whichever that is; the two
results and graphs are equal. -/
theorem analyzeMany_exact_chain :
    let c : TaintConfig := {}
    let g := (Graph.addShape ∅ .chain 4 "n").setProperties [⟨0⟩, ⟨2⟩] "tainted" "true"
    c.maxVisits = none ∧ Identifies g ∧
      (analyzeMany c g [⟨0⟩, ⟨9⟩, ⟨2⟩]).2 = (analyzeMany c g [⟨2⟩, ⟨0⟩, ⟨9⟩]).2 ∧
      (analyzeMany c g [⟨0⟩, ⟨9⟩, ⟨2⟩]).1.marked = (analyzeMany c g [⟨2⟩, ⟨0⟩, ⟨9⟩]).1.marked ∧
      ⟨3⟩ ∈ (analyzeMany c g [⟨2⟩, ⟨0⟩, ⟨9⟩]).1.sources ∧
      carries c (propagateAll c g).2 ⟨3⟩ = true := by
  intro c g
  have hid : Identifies g := by decide
  obtain ⟨hsets, hperm, hleast⟩ := analyzeMany_exact c g rfl hid
  obtain ⟨hgraph, hmarked, -, -⟩ := hperm [⟨0⟩, ⟨9⟩, ⟨2⟩] [⟨2⟩, ⟨0⟩, ⟨9⟩] (by decide)
  have hmark : ⟨3⟩ ∈ (analyzeMany c g [⟨2⟩, ⟨0⟩, ⟨9⟩]).1.marked := by
    refine (hsets _ ⟨3⟩).1.mpr ⟨by decide, ⟨2⟩, ⟨by decide, ⟨2⟩, ?_⟩, TransGen.single (by decide)⟩
    exact ⟨List.mem_cons_self, by decide, ReflTransGen.refl⟩
  have hlast := hleast.1.2 ⟨2⟩ (hleast.1.1 ⟨2⟩ (by decide)) ⟨3⟩ (by decide)
  exact ⟨rfl, hid, hgraph, hmarked, (hsets _ ⟨3⟩).2.mpr (Or.inr hmark), hlast⟩

end Taint

end ProgramGraph
