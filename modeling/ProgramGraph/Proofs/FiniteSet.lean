import Mathlib.Data.List.Perm.Subperm
import Std.Data.ExtTreeSet

/-!
# Sizes of finite sets

Membership in the sets that filters and unions build, and how large a set is: no larger than a list
from which it is drawn (`size_le_length`), and smaller than a set that properly contains it
(`size_lt_size`). The iterations of all stages are bounded by such sizes.
-/

namespace ProgramGraph.FiniteSet

variable {α : Type} [Ord α] [Std.TransOrd α] [Std.LawfulEqOrd α] {s t : Std.ExtTreeSet α} {a : α}

/-- A filter keeps the elements that pass. -/
theorem mem_filter_iff {p : α → Bool} : a ∈ s.filter p ↔ a ∈ s ∧ p a = true := by
  rw [Std.ExtTreeSet.mem_filter]
  constructor
  · rintro ⟨ha, hp⟩
    rw [Std.ExtTreeSet.get_eq] at hp
    exact ⟨ha, hp⟩
  · rintro ⟨ha, hp⟩
    refine ⟨ha, ?_⟩
    rw [Std.ExtTreeSet.get_eq]
    exact hp

omit [Std.LawfulEqOrd α] in
/-- The union of what each entry of a list contributes. -/
theorem mem_foldl_union {β : Type} {f : β → Std.ExtTreeSet α} {l : List β} :
    a ∈ l.foldl (fun s b => s ∪ f b) ∅ ↔ ∃ b ∈ l, a ∈ f b := by
  have fold : ∀ (l : List β) (s : Std.ExtTreeSet α),
      a ∈ l.foldl (fun s b => s ∪ f b) s ↔ a ∈ s ∨ ∃ b ∈ l, a ∈ f b := by
    intro l
    induction l with
    | nil => simp
    | cons b l ih =>
      intro s
      rw [List.foldl_cons, ih, Std.ExtTreeSet.mem_union_iff, or_assoc]
      simp
  rw [fold]
  simp

/-- The list of a set names each element once. -/
theorem nodup_toList (s : Std.ExtTreeSet α) : s.toList.Nodup := by
  refine Std.ExtTreeSet.distinct_toList.imp fun {a b} hne heq => hne ?_
  rw [heq]
  exact Std.ReflOrd.compare_self

/-- A set that is drawn from a list is no larger than the list is long. -/
theorem size_le_length {l : List α} (h : ∀ a ∈ s, a ∈ l) : s.size ≤ l.length := by
  rw [← Std.ExtTreeSet.length_toList]
  refine ((nodup_toList s).subperm fun a ha => ?_).length_le
  exact h a (Std.ExtTreeSet.mem_toList.mp ha)

/-- A subset is no larger. -/
theorem size_le_size (hsub : ∀ a ∈ s, a ∈ t) : s.size ≤ t.size := by
  rw [← Std.ExtTreeSet.length_toList (t := t)]
  exact size_le_length fun a ha => Std.ExtTreeSet.mem_toList.mpr (hsub a ha)

/-- A proper subset is smaller. -/
theorem size_lt_size (hsub : ∀ a ∈ s, a ∈ t) (hne : s ≠ t) : s.size < t.size := by
  obtain ⟨b, hbt, hbs⟩ : ∃ b, b ∈ t ∧ b ∉ s := by
    by_contra hnone
    refine hne (Std.ExtTreeSet.ext_mem fun a => ⟨hsub a, fun ha => ?_⟩)
    by_contra has
    exact hnone ⟨a, ha, has⟩
  have hinsert : (s.insert b).size ≤ t.size := by
    refine size_le_size fun a ha => ?_
    rcases Std.ExtTreeSet.mem_insert.mp ha with heq | ha
    · rwa [← Std.LawfulEqOrd.eq_of_compare heq]
    · exact hsub a ha
  rw [Std.ExtTreeSet.size_insert, if_neg (mt Std.ExtTreeSet.contains_iff_mem.mp hbs)] at hinsert
  omega

end ProgramGraph.FiniteSet
