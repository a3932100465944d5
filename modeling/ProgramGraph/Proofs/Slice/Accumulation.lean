import ProgramGraph.Proofs.Slice.Distance

/-!
# Slices that are added up

Closures of several starts can be added to one set, start after start. Nodes that are in the set
already are not entered again, whichever start they were added for.

* Without a depth nothing is lost by that (`accumulated_iff_exists_slice`). The set is closed under
  followed edges after every start, so what lies behind a member is a member. The sum is the union
  of the slices, in whatever order the starts come.
* With a depth the set need not be closed: nothing is followed from the nodes at the greatest depth.
  If a later start leads over such a node, or is one itself, what lies behind stays outside, even
  within the depth of that start (`not_accumulated_chain`). `accumulated_or_overtaken` says that
  only this can happen: a walk within the depth leads to a node of the sum, or it comes to a node
  that was entered for an earlier start, and at a greater depth.
-/

namespace ProgramGraph.Slice

open ProgramGraph.Graph (WalkVia)

variable {c : SliceConfig} {g : Graph} {d : Direction} {base : NodeSet} {start n p q : NodeId}
  {k : Nat} {starts before : List (Option NodeId)}

/-! ### One start after the other -/

/-- Adds the closures of several starts to a set, in order. -/
def extendAll (c : SliceConfig) (g : Graph) (d : Direction) (starts : List (Option NodeId))
    (members : NodeSet) : NodeSet :=
  starts.foldl (fun members start => (extend c g d start members).1) members

theorem extendAll_append (xs ys : List (Option NodeId)) :
    extendAll c g d (xs ++ ys) base = extendAll c g d ys (extendAll c g d xs base) :=
  List.foldl_append

/-- A start adds what is reached from it, and nothing if it does not resolve. -/
theorem mem_extend_iff {o : Option NodeId} : n ∈ (extend c g d o base).1 ↔
    n ∈ base ∨ ∃ start, g.resolve o = some start ∧ Reaches c g d base start n := by
  cases ho : g.resolve o with
  | none => simp [extend, ho]
  | some start =>
    obtain ⟨rfl, hstart⟩ := Graph.resolve_eq_some_iff.mp ho
    rw [mem_extend_iff_reaches hstart]
    simp

/-- A slice consists of the nodes that are reached from its start, if there is one. -/
theorem mem_nodes_directed_iff_resolve {o : Option NodeId} :
    n ∈ (directed c g d o).nodes ↔ ∃ start, g.resolve o = some start ∧ Reaches c g d ∅ start n :=
  mem_extend_iff.trans (or_iff_right Std.ExtTreeSet.not_mem_empty)

theorem mem_extendAll_of_mem (starts : List (Option NodeId)) (h : n ∈ base) :
    n ∈ extendAll c g d starts base := by
  induction starts generalizing base with
  | nil => exact h
  | cons o starts ih => exact ih (mem_extend_iff.mpr (Or.inl h))

/-- What is reached from a start around the sum of the earlier ones is in the sum. -/
theorem mem_extendAll_of_reaches (after : List (Option NodeId)) (hstart : g.contains start = true)
    (h : Reaches c g d (extendAll c g d before base) start n) :
    n ∈ extendAll c g d (before ++ some start :: after) base := by
  rw [extendAll_append]
  refine mem_extendAll_of_mem after (mem_extend_iff.mpr (Or.inr ⟨start, ?_, h⟩))
  exact Graph.resolve_eq_some_iff.mpr ⟨rfl, hstart⟩

/-! ### Without a depth -/

/-- What the members lead to is in the set. -/
def IsClosed (c : SliceConfig) (g : Graph) (d : Direction) (members : NodeSet) : Prop :=
  ∀ m ∈ members, ∀ t, Followed c g d m t → t ∈ members

/-- A walk does not touch a closed set, or it does not leave it. -/
theorem IsClosed.avoids_or_mem {m : NodeId} {ps : List NodeId} (hbase : IsClosed c g d base)
    (h : WalkVia (Followed c g d) (· ∉ (∅ : NodeSet)) m n ps) :
    WalkVia (Followed c g d) (· ∉ base) m n ps ∨ n ∈ base := by
  induction ps generalizing m with
  | nil =>
    obtain ⟨rfl, -⟩ := Graph.walkVia_nil.mp h
    by_cases hm : m ∈ base
    · exact Or.inr hm
    · exact Or.inl (Graph.walkVia_nil.mpr ⟨rfl, hm⟩)
  | cons p ps ih =>
    obtain ⟨-, hfirst, hrest⟩ := Graph.walkVia_cons.mp h
    refine (ih hrest).imp_left fun havoids => Graph.walkVia_cons.mpr ⟨fun hm => ?_, hfirst, havoids⟩
    exact havoids.clear_first (hbase m hm p hfirst)

/-- To a closed set a start adds its whole slice. -/
theorem IsClosed.mem_extend_iff (hbase : IsClosed c g d base) {o : Option NodeId} :
    n ∈ (extend c g d o base).1 ↔ n ∈ base ∨ n ∈ (directed c g d o).nodes := by
  rw [Slice.mem_extend_iff, mem_nodes_directed_iff_resolve]
  constructor
  · refine Or.imp_right fun ⟨start, ho, ps, hwalk, hallows⟩ => ⟨start, ho, ps, ?_, hallows⟩
    exact hwalk.imp fun _ _ => Std.ExtTreeSet.not_mem_empty
  · rintro (hn | ⟨start, ho, ps, hwalk, hallows⟩)
    · exact Or.inl hn
    · refine (hbase.avoids_or_mem hwalk).symm.imp_right fun havoids => ?_
      exact ⟨start, ho, ps, havoids, hallows⟩

section Unbounded

variable (hdepth : c.maxDepth = none)

include hdepth

/-- **A start keeps a set closed.** -/
theorem IsClosed.extend (hbase : IsClosed c g d base) (o : Option NodeId) :
    IsClosed c g d (extend c g d o base).1 := by
  intro m hm t hfollowed
  rcases Slice.mem_extend_iff.mp hm with hm | ⟨start, ho, ps, hwalk, -⟩
  · exact Slice.mem_extend_iff.mpr (Or.inl (hbase m hm t hfollowed))
  · by_cases ht : t ∈ base
    · exact Slice.mem_extend_iff.mpr (Or.inl ht)
    · refine Slice.mem_extend_iff.mpr (Or.inr ⟨start, ho, ps ++ [t], ?_, allows_of_none hdepth _⟩)
      exact hwalk.concat hfollowed ht

/-- Over a closed set the closures of several starts add up to the union of their slices. -/
theorem IsClosed.mem_extendAll_iff (hbase : IsClosed c g d base) (starts : List (Option NodeId)) :
    n ∈ extendAll c g d starts base ↔ n ∈ base ∨ ∃ o ∈ starts, n ∈ (directed c g d o).nodes := by
  induction starts generalizing base with
  | nil => simp [extendAll]
  | cons o starts ih =>
    have hstep := ih (hbase.extend hdepth o)
    rw [hbase.mem_extend_iff, or_assoc] at hstep
    simp only [List.exists_mem_cons_iff]
    exact hstep

end Unbounded

/-- **The sum of unbounded closures is the union of the slices**, in both directions, and does not
depend on the order of the starts. -/
theorem accumulated_iff_exists_slice (c : SliceConfig) (g : Graph) (hdepth : c.maxDepth = none)
    (starts : List (Option NodeId)) :
    let forwards := fun starts : List (Option NodeId) =>
      starts.foldl (fun members start => extendForward c g start members) ∅
    let backwards := fun starts : List (Option NodeId) =>
      starts.foldl (fun members start => extendBackward c g start members) ∅
    (∀ n, n ∈ forwards starts ↔ ∃ start ∈ starts, n ∈ (forward c g start).nodes) ∧
    (∀ n, n ∈ backwards starts ↔ ∃ start ∈ starts, n ∈ (backward c g start).nodes) ∧
    ∀ starts', starts.Perm starts' →
      forwards starts' = forwards starts ∧ backwards starts' = backwards starts := by
  intro forwards backwards
  have hempty : ∀ d, IsClosed c g d ∅ := fun d m hm => absurd hm Std.ExtTreeSet.not_mem_empty
  have hunion : ∀ d starts n, n ∈ extendAll c g d starts ∅ ↔
      ∃ start ∈ starts, n ∈ (directed c g d start).nodes := fun d starts n =>
    ((hempty d).mem_extendAll_iff hdepth starts).trans (or_iff_right Std.ExtTreeSet.not_mem_empty)
  have hperm : ∀ d starts', starts.Perm starts' →
      extendAll c g d starts' ∅ = extendAll c g d starts ∅ := by
    intro d starts' h
    refine Std.ExtTreeSet.ext_mem fun n => ?_
    rw [hunion, hunion]
    exact exists_congr fun start => and_congr_left fun _ => h.mem_iff.symm
  exact ⟨hunion .forward starts, hunion .backward starts, fun starts' h =>
    ⟨hperm .forward starts' h, hperm .backward starts' h⟩⟩

/-- A cycle of three nodes and a fourth that leads into it over an edge that is not followed. Among
the starts are repeated and missing ones: the sum is the cycle, in both directions, and stays so if
the starts are turned round. -/
theorem accumulated_iff_exists_slice_cycle :
    let c : SliceConfig := { edgeKindKey := some "kind", edgeKinds := ["data"] }
    let g := ([⟨0⟩, ⟨1⟩, ⟨2⟩] : List EdgeId).foldl (fun g e => g.setEdgeProperty e "kind" "data")
      (((Graph.addShape ∅ .cycle 3 "n").addNode "m").2.connect "in" ⟨3⟩ ⟨0⟩).2
    let starts : List (Option NodeId) := [some ⟨1⟩, none, some ⟨9⟩, some ⟨0⟩, some ⟨1⟩]
    c.maxDepth = none ∧
      ⟨2⟩ ∈ starts.foldl (fun members start => extendForward c g start members) (∅ : NodeSet) ∧
      ⟨3⟩ ∉ starts.foldl (fun members start => extendBackward c g start members) (∅ : NodeSet) ∧
      starts.reverse.foldl (fun members start => extendForward c g start members) (∅ : NodeSet) =
        starts.foldl (fun members start => extendForward c g start members) ∅ := by
  intro c g starts
  have hslice : ⟨2⟩ ∈ (forward c g (some ⟨1⟩)).nodes := by decide +kernel
  have houtside : ∀ start ∈ starts, ⟨3⟩ ∉ (backward c g start).nodes := by decide +kernel
  obtain ⟨hforward, hbackward, hperm⟩ := accumulated_iff_exists_slice c g rfl starts
  refine ⟨rfl, (hforward _).mpr ⟨some ⟨1⟩, List.mem_cons_self, hslice⟩, fun h => ?_,
    (hperm _ starts.reverse_perm.symm).1⟩
  obtain ⟨start, hstart, hmem⟩ := (hbackward _).mp h
  exact houtside start hstart hmem

/-! ### With a depth -/

/-- When closures of the starts are added up, the node is entered `k` steps from the start that it
is added for. -/
def EnteredAt (c : SliceConfig) (g : Graph) (d : Direction) (starts : List (Option NodeId))
    (n : NodeId) (k : Nat) : Prop :=
  ∃ before start after, starts = before ++ some start :: after ∧ g.contains start = true ∧
    AtDistance c g d (extendAll c g d before ∅) start n k ∧ Allows c k

/-- A walk from a start comes to a node that was entered before, for one of the starts of the list,
and at a greater depth than the walk comes there. -/
def Overtaken (c : SliceConfig) (g : Graph) (d : Direction) (before : List (Option NodeId))
    (start : NodeId) (ps : List NodeId) : Prop :=
  ∃ front back k, ps = front ++ back ∧ EnteredAt c g d before (front.getLastD start) k ∧
    front.length < k

/-- The sum is made of the nodes that were entered for one of the starts. -/
theorem mem_extendAll_iff_enteredAt (starts : List (Option NodeId)) :
    n ∈ extendAll c g d starts ∅ ↔ ∃ k, EnteredAt c g d starts n k := by
  constructor
  · intro hn
    induction starts using List.reverseRecOn with
    | nil => exact absurd hn Std.ExtTreeSet.not_mem_empty
    | append_singleton before o ih =>
      rw [extendAll_append] at hn
      rcases mem_extend_iff.mp hn with hn | ⟨start, ho, hreached⟩
      · obtain ⟨k, before', start, after, rfl, hstart, hk⟩ := ih hn
        exact ⟨k, before', start, after ++ [o], by simp, hstart, hk⟩
      · obtain ⟨rfl, hstart⟩ := Graph.resolve_eq_some_iff.mp ho
        obtain ⟨k, hk⟩ := reaches_iff_atDistance.mp hreached
        exact ⟨k, before, start, [], rfl, hstart, hk⟩
  · rintro ⟨k, before, start, after, rfl, hstart, hk⟩
    exact mem_extendAll_of_reaches after hstart (reaches_iff_atDistance.mpr ⟨k, hk⟩)

/-- What a node leads to that was entered before the depth was used up is in the sum. -/
theorem EnteredAt.mem_of_followed (h : EnteredAt c g d starts p k) (hallows : Allows c (k + 1))
    (hfollowed : Followed c g d p q) : q ∈ extendAll c g d starts ∅ := by
  obtain ⟨before, start, after, rfl, hstart, ⟨⟨ps, hwalk, rfl⟩, -⟩, -⟩ := h
  by_cases hq : q ∈ extendAll c g d before ∅
  · rw [extendAll_append]
    exact mem_extendAll_of_mem (some start :: after) hq
  · refine mem_extendAll_of_reaches after hstart ⟨ps ++ [q], hwalk.concat hfollowed hq, ?_⟩
    rwa [List.length_append, List.length_singleton]

/-- A member of the sum was entered no deeper than a walk comes there, or overtakes the walk. -/
theorem enteredAt_or_overtaken {ps : List NodeId} (hn : n ∈ extendAll c g d before ∅)
    (hlast : ps.getLastD start = n) :
    (∃ k ≤ ps.length, EnteredAt c g d before n k) ∨ Overtaken c g d before start ps := by
  obtain ⟨k, hk⟩ := (mem_extendAll_iff_enteredAt before).mp hn
  rcases Nat.lt_or_ge ps.length k with hdeeper | hle
  · exact Or.inr ⟨ps, [], k, by simp, by rwa [hlast], hdeeper⟩
  · exact Or.inl ⟨k, hle, hk⟩

/-- A walk that is overtaken stays so when it goes on. -/
theorem Overtaken.concat {ps : List NodeId} (h : Overtaken c g d before start ps) (q : NodeId) :
    Overtaken c g d before start (ps ++ [q]) := by
  obtain ⟨front, back, k, rfl, hk⟩ := h
  exact ⟨front, back ++ [q], k, by simp, hk⟩

/-- **A walk within the depth** does not touch the sum so far, or leads to a node that was entered
no deeper than the walk comes there, or is overtaken. The induction is on the last step of the walk;
behind a node that was entered no deeper, the depth was left for one more step. -/
theorem avoids_or_enteredAt_or_overtaken {ps : List NodeId} (before : List (Option NodeId))
    (hwalk : WalkVia (Followed c g d) (· ∉ (∅ : NodeSet)) start n ps)
    (hallows : Allows c ps.length) :
    WalkVia (Followed c g d) (· ∉ extendAll c g d before ∅) start n ps ∨
      (∃ k ≤ ps.length, EnteredAt c g d before n k) ∨ Overtaken c g d before start ps := by
  induction ps using List.reverseRecOn generalizing n with
  | nil =>
    obtain ⟨rfl, -⟩ := Graph.walkVia_nil.mp hwalk
    by_cases hstart : start ∈ extendAll c g d before ∅
    · exact Or.inr (enteredAt_or_overtaken hstart rfl)
    · exact Or.inl (Graph.walkVia_nil.mpr ⟨rfl, hstart⟩)
  | append_singleton ps q ih =>
    have hlast := hwalk.2.1
    obtain ⟨rfl, p, hps, hfollowed⟩ := hwalk.of_concat
    rw [List.length_append, List.length_singleton] at hallows
    by_cases hq : q ∈ extendAll c g d before ∅
    · exact Or.inr (enteredAt_or_overtaken hq hlast)
    · rcases ih hps (hallows.mono (Nat.le_succ _)) with havoids | ⟨k, hk, hentered⟩ | hovertaken
      · exact Or.inl (havoids.concat hfollowed hq)
      · exact absurd (hentered.mem_of_followed (hallows.mono (Nat.succ_le_succ hk)) hfollowed) hq
      · exact Or.inr (Or.inr (hovertaken.concat q))

/-- A walk within the depth from one of the starts leads to a node of the sum, or is overtaken. -/
theorem mem_extendAll_or_overtaken {ps : List NodeId} (after : List (Option NodeId))
    (hstart : g.contains start = true)
    (hwalk : WalkVia (Followed c g d) (· ∉ (∅ : NodeSet)) start n ps)
    (hallows : Allows c ps.length) :
    n ∈ extendAll c g d (before ++ some start :: after) ∅ ∨ Overtaken c g d before start ps := by
  rcases avoids_or_enteredAt_or_overtaken before hwalk hallows with
    havoids | ⟨k, -, hentered⟩ | hovertaken
  · exact Or.inl (mem_extendAll_of_reaches after hstart ⟨ps, havoids, hallows⟩)
  · have hn := (mem_extendAll_iff_enteredAt before).mpr ⟨k, hentered⟩
    rw [extendAll_append]
    exact Or.inl (mem_extendAll_of_mem (some start :: after) hn)
  · exact Or.inr hovertaken

/-- **Bounded closures that are added up** give the nodes that are entered for one of the starts,
all of which are in the slice of one of them. Of what is within the depth of a start, only what is
overtaken can be missing: a walk within the depth leads to a node of the sum, or comes to a node
that was entered for an earlier start and at a greater depth. So the whole slice of a start is in
the sum if none of its nodes was entered deeper, for an earlier start, than it is away from this
one. -/
theorem accumulated_or_overtaken (c : SliceConfig) (g : Graph) (max : UInt64)
    (hmax : c.maxDepth = some max) (starts : List (Option NodeId)) :
    let accumulated := starts.foldl (fun members start => extendForward c g start members) ∅
    (∀ n, n ∈ accumulated ↔ ∃ k, EnteredAt c g .forward starts n k) ∧
    (∀ n ∈ accumulated, ∃ start ∈ starts, n ∈ (forward c g start).nodes) ∧
    ∀ before start after, starts = before ++ some start :: after → g.contains start = true →
      (∀ ps n, WalkVia (Followed c g .forward) (fun _ => True) start n ps →
        ps.length ≤ max.toNat → n ∈ accumulated ∨ Overtaken c g .forward before start ps) ∧
      ((∀ p j k, AtDistance c g .forward ∅ start p j → EnteredAt c g .forward before p k → k ≤ j) →
        ∀ n ∈ (forward c g (some start)).nodes, n ∈ accumulated) := by
  intro accumulated
  have hentered : ∀ n, n ∈ accumulated ↔ ∃ k, EnteredAt c g .forward starts n k := fun n =>
    mem_extendAll_iff_enteredAt starts
  refine ⟨hentered, fun n hn => ?_, ?_⟩
  · obtain ⟨k, before, start, after, rfl, hstart, ⟨⟨ps, hwalk, rfl⟩, -⟩, hallows⟩ :=
      (hentered n).mp hn
    refine ⟨some start, by simp, (mem_nodes_directed_iff hstart).mpr ⟨ps, ?_, hallows⟩⟩
    exact hwalk.imp fun _ _ => Std.ExtTreeSet.not_mem_empty
  · rintro before start after rfl hstart
    refine ⟨fun ps n hwalk hlength => ?_, fun hearlier n hn => ?_⟩
    · exact mem_extendAll_or_overtaken after hstart
        (hwalk.imp fun _ _ => Std.ExtTreeSet.not_mem_empty) ((allows_iff_le hmax).mpr hlength)
    · obtain ⟨j, hj, hallows⟩ := reaches_iff_atDistance.mp ((mem_nodes_directed_iff hstart).mp hn)
      obtain ⟨ps, hwalk, rfl⟩ := hj.1
      refine (mem_extendAll_or_overtaken after hstart hwalk hallows).resolve_right ?_
      rintro ⟨front, back, k, rfl, hk, hdeeper⟩
      obtain ⟨p, hfront, -⟩ := WalkVia.append_iff.mp hwalk
      rw [hfront.2.1] at hk
      have hle := hearlier p front.length k (hj.of_append hwalk hfront) hk
      omega

/-- A chain of three nodes, with a depth of one. After the first node was a start, the second is a
member at the greatest depth, and overtakes the walk from it to the third. A start that is repeated
loses nothing. -/
theorem accumulated_or_overtaken_chain :
    let c : SliceConfig := { maxDepth := some 1 }
    let g := Graph.addShape ∅ .chain 3 "n"
    c.maxDepth = some 1 ∧ g.contains ⟨0⟩ = true ∧ g.contains ⟨1⟩ = true ∧
      Overtaken c g .forward [some ⟨0⟩] ⟨1⟩ [⟨2⟩] ∧
      ∀ n ∈ (forward c g (some ⟨0⟩)).nodes, n ∈ ([some ⟨0⟩, some ⟨0⟩] : List (Option NodeId)).foldl
        (fun members start => extendForward c g start members) (∅ : NodeSet) := by
  intro c g
  have hlost : ⟨2⟩ ∉ ([some ⟨0⟩, some ⟨1⟩] : List (Option NodeId)).foldl
      (fun members start => extendForward c g start members) (∅ : NodeSet) := by decide +kernel
  have hwalk : WalkVia (Followed c g .forward) (fun _ => True) ⟨1⟩ ⟨2⟩ [⟨2⟩] := by
    simp only [Graph.walkVia_cons, Graph.walkVia_nil]
    decide +kernel
  obtain ⟨-, -, hsecond⟩ := accumulated_or_overtaken c g 1 rfl [some ⟨0⟩, some ⟨1⟩]
  obtain ⟨-, -, hagain⟩ := accumulated_or_overtaken c g 1 rfl [some ⟨0⟩, some ⟨0⟩]
  obtain ⟨hkept, -⟩ := hsecond [some ⟨0⟩] ⟨1⟩ [] rfl (by decide)
  obtain ⟨-, hwhole⟩ := hagain [some ⟨0⟩] ⟨0⟩ [] rfl (by decide)
  refine ⟨rfl, by decide, by decide, (hkept _ _ hwalk le_rfl).resolve_left hlost, hwhole ?_⟩
  rintro p j k hj ⟨before, start, after, hsplit, -, hk, -⟩
  obtain ⟨rfl, rfl, rfl⟩ : before = [] ∧ start = ⟨0⟩ ∧ after = [] := by
    simpa [List.singleton_eq_append_iff] using hsplit
  exact (hk.unique hj).le

/-- The sum of bounded closures need not hold the slices: the third node of the chain is in the
slice of the second, and is not added if the first node was a start before. If the second node comes
first it is. -/
theorem not_accumulated_chain :
    let c : SliceConfig := { maxDepth := some 1 }
    let g := Graph.addShape ∅ .chain 3 "n"
    let accumulated := fun starts : List (Option NodeId) =>
      starts.foldl (fun members start => extendForward c g start members) (∅ : NodeSet)
    ⟨2⟩ ∈ (forward c g (some ⟨1⟩)).nodes ∧ ⟨2⟩ ∉ accumulated [some ⟨0⟩, some ⟨1⟩] ∧
      ⟨2⟩ ∈ accumulated [some ⟨1⟩, some ⟨0⟩] := by
  decide +kernel

end ProgramGraph.Slice
