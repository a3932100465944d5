import Mathlib.Data.List.Nodup
import Mathlib.Data.List.Perm.Subperm
import Mathlib.Data.List.TakeWhile
import ProgramGraph.Graph.Preorder
import ProgramGraph.Proofs.Graph.Adjacency
import ProgramGraph.Proofs.Graph.Walk

/-!
# Depth-first order, derived

`Graph.DepthFirst` says what it is to visit nodes depth first, by recursion and without a stack:
visiting a node adds it to the order and visits its targets in the order of its list, and a node
that was visited is passed over. The order is determined (`DepthFirst.unique`), no node stands in it
twice (`DepthFirst.nodup`), and the nodes in it are those that can be reached
(`DepthFirst.mem_iff_reaches`).

`depthFirst_reachableFrom`: the walk of `Graph.reachableFrom` keeps a stack from which targets are
left out that were visited before, and lists the nodes in that order. Leaving them out makes no
difference, since they would be passed over (`DepthFirst.of_filter`).
-/

namespace ProgramGraph.Graph

open Relation (ReflTransGen)

/-- Visiting the nodes of a list one after the other, each with all that it leads to, takes the
order of the nodes visited so far to that of the nodes visited in the end. -/
inductive DepthFirst (g : Graph) : List NodeId → List NodeId → List NodeId → Prop
  | done {order} : DepthFirst g order [] order
  | skip {order order' n rest} : n ∈ order → DepthFirst g order rest order' →
      DepthFirst g order (n :: rest) order'
  | visit {order order' order'' n rest} : n ∉ order →
      DepthFirst g (order ++ [n]) (g.successors n) order' → DepthFirst g order' rest order'' →
      DepthFirst g order (n :: rest) order''

namespace DepthFirst

variable {g : Graph} {order order' order'' ns rest : List NodeId} {n : NodeId}

/-- What was visited stays visited. -/
theorem subset (h : DepthFirst g order ns order') : order ⊆ order' := by
  induction h with
  | done => exact List.Subset.refl _
  | skip _ _ ih => exact ih
  | visit _ _ _ ihtargets ihrest =>
    exact fun m hm => ihrest (ihtargets (List.mem_append_left _ hm))

/-- Nothing is visited twice. -/
theorem nodup (h : DepthFirst g order ns order') (horder : order.Nodup) : order'.Nodup := by
  induction h with
  | done => exact horder
  | skip _ _ ih => exact ih horder
  | visit hn _ _ ihtargets ihrest =>
    refine ihrest (ihtargets ?_)
    rw [← List.concat_eq_append]
    exact List.Nodup.concat hn horder

/-- All the nodes that were to be entered are in the order. -/
theorem mem_of_mem (h : DepthFirst g order ns order') (hn : n ∈ ns) : n ∈ order' := by
  induction h with
  | done => exact absurd hn List.not_mem_nil
  | skip hmem hrest ih =>
    rcases List.mem_cons.mp hn with rfl | hn
    · exact hrest.subset hmem
    · exact ih hn
  | visit _ htargets hrest _ ihrest =>
    rcases List.mem_cons.mp hn with rfl | hn
    · exact hrest.subset (htargets.subset (List.mem_append_right _ (List.mem_singleton_self n)))
    · exact ihrest hn

/-- Only what can be reached is visited. -/
theorem reaches (h : DepthFirst g order ns order') {m : NodeId} (hm : m ∈ order') :
    m ∈ order ∨ ∃ n ∈ ns, ReflTransGen g.Leads n m := by
  induction h with
  | done => exact Or.inl hm
  | skip _ _ ih => exact (ih hm).imp_right List.exists_mem_cons_of_exists
  | @visit order order' order'' n rest _ _ _ ihtargets ihrest =>
    rcases ihrest hm with hm | hm
    · rcases ihtargets hm with hm | ⟨t, ht, hreach⟩
      · refine (List.mem_append.mp hm).imp_right fun hm => ⟨n, List.mem_cons_self, ?_⟩
        rw [List.mem_singleton.mp hm]
      · exact Or.inr ⟨n, List.mem_cons_self, .head ht hreach⟩
    · exact Or.inr (List.exists_mem_cons_of_exists hm)

/-- The targets of a node that is visited are visited in the end. -/
theorem closed (h : DepthFirst g order ns order') {m : NodeId} (hm : m ∈ order') :
    m ∈ order ∨ ∀ t, g.Leads m t → t ∈ order' := by
  induction h with
  | done => exact Or.inl hm
  | skip _ _ ih => exact ih hm
  | @visit order order' order'' n rest _ htargets hrest ihtargets ihrest =>
    rcases ihrest hm with hm | hm
    · rcases ihtargets hm with hm | hm
      · refine (List.mem_append.mp hm).imp_right fun hm t ht => ?_
        rw [List.mem_singleton.mp hm] at ht
        exact hrest.subset (htargets.mem_of_mem ht)
      · exact Or.inr fun t ht => hrest.subset (hm t ht)
    · exact Or.inr hm

/-- **Exactly the nodes that can be reached are visited.** -/
theorem mem_iff_reaches {e m : NodeId} (h : DepthFirst g [] [e] order) :
    m ∈ order ↔ ReflTransGen g.Leads e m := by
  constructor
  · intro hm
    obtain ⟨n, hn, hreach⟩ := (h.reaches hm).resolve_left List.not_mem_nil
    rwa [List.mem_singleton.mp hn] at hreach
  · intro hreach
    induction hreach with
    | refl => exact h.mem_of_mem (List.mem_singleton_self e)
    | tail _ hleads ih => exact (h.closed ih).resolve_left List.not_mem_nil _ hleads

/-- The order is determined. -/
theorem unique (h : DepthFirst g order ns order') (h' : DepthFirst g order ns order'') :
    order' = order'' := by
  induction h generalizing order'' with
  | done =>
    cases h'
    rfl
  | skip hn _ ih =>
    cases h' with
    | skip _ hrest => exact ih hrest
    | visit hnot => exact absurd hn hnot
  | visit hn _ _ ihtargets ihrest =>
    cases h' with
    | skip hmem => exact absurd hmem hn
    | visit _ htargets hrest =>
      cases ihtargets htargets
      exact ihrest hrest

/-- One list after another. -/
theorem append (h : DepthFirst g order ns order') (h' : DepthFirst g order' rest order'') :
    DepthFirst g order (ns ++ rest) order'' := by
  induction h with
  | done => exact h'
  | skip hn _ ih => exact .skip hn (ih h')
  | visit hn htargets _ _ ihrest => exact .visit hn htargets (ihrest h')

/-- Two lists of nodes are entered one after the other. -/
theorem exists_of_append (h : DepthFirst g order (ns ++ rest) order'') :
    ∃ order', DepthFirst g order ns order' ∧ DepthFirst g order' rest order'' := by
  induction ns generalizing order with
  | nil => exact ⟨order, .done, h⟩
  | cons n ns ih =>
    cases h with
    | skip hn hrest =>
      obtain ⟨order', hns, hlast⟩ := ih hrest
      exact ⟨order', .skip hn hns, hlast⟩
    | visit hn htargets hrest =>
      obtain ⟨order', hns, hlast⟩ := ih hrest
      exact ⟨order', .visit hn htargets hns, hlast⟩

/-- The targets of a node can be put in front of the nodes that are to be visited after it. -/
theorem visit_append (hn : n ∉ order)
    (h : DepthFirst g (order ++ [n]) (g.successors n ++ rest) order') :
    DepthFirst g order (n :: rest) order' := by
  obtain ⟨_, htargets, hrest⟩ := h.exists_of_append
  exact .visit hn htargets hrest

/-- Nodes that are in the order already are passed over. -/
theorem skip_all (hns : ∀ n ∈ ns, n ∈ order) (h : DepthFirst g order rest order') :
    DepthFirst g order (ns ++ rest) order' := by
  induction ns with
  | nil => exact h
  | cons n ns ih =>
    exact .skip (hns n List.mem_cons_self) (ih fun m hm => hns m (List.mem_cons_of_mem n hm))

/-- Nodes that were visited can be left out. -/
theorem of_filter {p : NodeId → Bool} (hns : ∀ n ∈ ns, p n = false → n ∈ order)
    (h : DepthFirst g order (ns.filter p) order') : DepthFirst g order ns order' := by
  induction ns generalizing order with
  | nil => exact h
  | cons n ns ih =>
    have hrest : ∀ m ∈ ns, p m = false → m ∈ order := fun m hm =>
      hns m (List.mem_cons_of_mem n hm)
    cases hp : p n with
    | false =>
      rw [List.filter_cons_of_neg (by simp [hp])] at h
      exact .skip (hns n List.mem_cons_self hp) (ih hrest h)
    | true =>
      rw [List.filter_cons_of_pos hp] at h
      cases h with
      | skip hn h => exact .skip hn (ih hrest h)
      | visit hn htargets h =>
        refine .visit hn htargets (ih (fun m hm hpm => ?_) h)
        exact htargets.subset (List.mem_append_left _ (hrest m hm hpm))

end DepthFirst

/-! ### The walk with a stack -/

namespace Preorder

variable {g : Graph} {w : Preorder} {n : NodeId} {rest : List NodeId}

/-- If no node is left to enter, all that are stacked were seen. -/
theorem mem_seen_of_next?_eq_none (h : w.next? = none) {m : NodeId} (hm : m ∈ w.stack) :
    m ∈ w.seen := by
  have hnil : w.stack.dropWhile w.seen.contains = [] := by
    unfold next? at h
    split at h
    · assumption
    · cases h
  exact Std.ExtTreeSet.contains_iff_mem.mp (List.dropWhile_eq_nil_iff.mp hnil m hm)

/-- Above the next node only nodes that were entered stand on the stack. -/
theorem exists_of_next?_eq_some (h : w.next? = some (n, rest)) : ∃ passed : List NodeId,
    w.stack = passed ++ n :: rest ∧ (∀ m ∈ passed, m ∈ w.seen) ∧ n ∉ w.seen := by
  have hdrop : w.stack.dropWhile w.seen.contains = n :: rest := by
    unfold next? at h
    split at h
    · cases h
    · rename_i heq
      cases h
      exact heq
  refine ⟨w.stack.takeWhile w.seen.contains, ?_, fun m hm => ?_, ?_⟩
  · rw [← hdrop, List.takeWhile_append_dropWhile]
  · exact Std.ExtTreeSet.contains_iff_mem.mp (List.mem_takeWhile_imp hm)
  · have hhead := List.head?_dropWhile_not w.seen.contains w.stack
    rw [hdrop] at hhead
    intro hn
    exact absurd (Std.ExtTreeSet.contains_iff_mem.mpr hn) (Bool.eq_false_iff.mp hhead)

variable (g w) in
/-- What the walk keeps: the nodes entered are seen, they are nodes of the graph, none of them
twice, and so are the nodes on the stack. -/
structure Kept : Prop where
  mem_seen_iff : ∀ m, m ∈ w.seen ↔ m ∈ w.entered
  nodup : w.entered.Nodup
  entered_contains : ∀ m ∈ w.entered, g.contains m = true
  stack_contains : ∀ m ∈ w.stack, g.contains m = true

/-- Entering a node keeps what is known of the search. -/
theorem Kept.enter (hk : w.Kept g) (hnext : w.next? = some (n, rest)) :
    (w.enter g n rest).Kept g := by
  obtain ⟨passed, hstack, -, hn⟩ := exists_of_next?_eq_some hnext
  have hcontains : ∀ m ∈ n :: rest, g.contains m = true := fun m hm =>
    hk.stack_contains m (by rw [hstack]; exact List.mem_append_right passed hm)
  refine ⟨fun m => ?_, ?_, fun m hm => ?_, fun m hm => ?_⟩
  · rw [Preorder.enter, Std.ExtTreeSet.mem_insert, Std.LawfulEqOrd.compare_eq_iff_eq,
      hk.mem_seen_iff, List.mem_cons, eq_comm]
  · exact List.nodup_cons.mpr ⟨fun hm => hn ((hk.mem_seen_iff n).mpr hm), hk.nodup⟩
  · rcases List.mem_cons.mp hm with rfl | hm
    · exact hcontains m List.mem_cons_self
    · exact hk.entered_contains m hm
  · rcases List.mem_append.mp hm with hm | hm
    · exact contains_of_mem_adjacent (d := .forward) (List.mem_of_mem_filter hm)
    · exact hcontains m (List.mem_cons_of_mem n hm)

/-- A node that was not entered leaves room. -/
theorem Kept.length_lt (hk : w.Kept g) (hn : n ∉ w.entered) (hcontains : g.contains n = true) :
    w.entered.length < g.nodeCount := by
  have hnodup : (n :: w.entered).Nodup := List.nodup_cons.mpr ⟨hn, hk.nodup⟩
  have hsub : n :: w.entered ⊆ g.nodeIds := by
    intro m hm
    rcases List.mem_cons.mp hm with rfl | hm
    · exact mem_nodeIds.mpr hcontains
    · exact mem_nodeIds.mpr (hk.entered_contains m hm)
  have hlen := (hnodup.subperm hsub).length_le
  rwa [List.length_cons, nodeIds, List.length_map, List.length_range] at hlen

/-- **The walk visits what is on its stack depth first**, if there is room for every node that was
not entered. -/
theorem depthFirst_run {room : Nat} (hk : w.Kept g)
    (hroom : g.nodeCount ≤ w.entered.length + room) :
    DepthFirst g w.entered.reverse w.stack (run g room w).entered.reverse := by
  have hdone : ∀ {w : Preorder}, w.Kept g → (∀ m ∈ w.stack, m ∈ w.entered) →
      DepthFirst g w.entered.reverse w.stack w.entered.reverse := by
    intro w hk hstack
    rw [← List.append_nil w.stack]
    exact .skip_all (fun m hm => List.mem_reverse.mpr (hstack m hm)) .done
  induction room generalizing w with
  | zero =>
    refine hdone hk fun m hm => ?_
    by_contra hnot
    have hlt := hk.length_lt hnot (hk.stack_contains m hm)
    omega
  | succ room ih =>
    cases hnext : w.next? with
    | none =>
      rw [run, hnext]
      exact hdone hk fun m hm => (hk.mem_seen_iff m).mp (mem_seen_of_next?_eq_none hnext hm)
    | some next =>
      obtain ⟨n, rest⟩ := next
      obtain ⟨passed, hstack, hpassed, hn⟩ := exists_of_next?_eq_some hnext
      have hmem : ∀ {m}, m ∈ w.entered.reverse ↔ m ∈ w.seen := fun {m} => by
        rw [List.mem_reverse, hk.mem_seen_iff]
      rw [run, hnext, hstack]
      refine .skip_all (fun m hm => hmem.mpr (hpassed m hm)) (.visit_append (mt hmem.mp hn) ?_)
      -- the targets left out of the stack were entered before
      have hrest := ih (hk.enter hnext) (by simp only [enter, List.length_cons]; omega)
      rw [enter, List.reverse_cons] at hrest
      obtain ⟨_, htargets, hrest⟩ := hrest.exists_of_append
      refine (htargets.of_filter fun m _ hseen => ?_).append hrest
      rw [Bool.not_eq_false', Std.ExtTreeSet.contains_iff_mem, Std.ExtTreeSet.mem_insert,
        Std.LawfulEqOrd.compare_eq_iff_eq] at hseen
      rw [List.mem_append, hmem, List.mem_singleton]
      exact hseen.symm.imp_right Eq.symm

end Preorder

/-- **The list of reachable nodes is in depth-first order.** -/
theorem depthFirst_reachableFrom {g : Graph} {start : Option NodeId} {e : NodeId}
    (he : g.resolve start = some e) : DepthFirst g [] [e] (g.reachableFrom start) := by
  have hk : Preorder.Kept g { stack := [e] } := by
    refine ⟨fun m => ?_, List.nodup_nil, fun m hm => (nomatch hm), fun m hm => ?_⟩
    · simp
    · rw [List.mem_singleton.mp hm]
      exact (resolve_eq_some_iff.mp he).2
  rw [reachableFrom, he]
  exact Preorder.depthFirst_run hk (by simp)

end ProgramGraph.Graph
