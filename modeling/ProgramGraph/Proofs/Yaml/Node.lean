import ProgramGraph.Proofs.Yaml.Printer
import ProgramGraph.Yaml.Node

/-!
# Printed values read as nodes

`Value.toNode` is the node that a value in block style is read as. `Reader.Takes` says of a reader
which tokens it consumes and what it makes of them, and that it leaves anchors and handles alone;
it composes along `bind`, so each reader of a collection is followed once, by induction on the parts
of the collection (`Reader.takes_flushItems`, `Reader.takes_blockEntries`). A node that was printed
from a value holds no references, so that `expand` leaves it as it is, and the text of a mapping is
read as the node of the mapping (`Value.tree_ofText_print`).
-/

namespace ProgramGraph.Yaml

theorem run_bind_of {α β σ ε : Type} {read : StateT σ (Except ε) α} {s s' : σ} {a : α}
    (h : read.run s = .ok (a, s')) (next : α → StateT σ (Except ε) β) :
    (read >>= next).run s = (next a).run s' := by
  rw [StateT.run_bind, h]
  rfl

theorem run_mapM_map {α β γ σ ε : Type} {f : β → StateT σ (Except ε) γ} {g : α → β} {h : α → γ}
    {xs : List α} {s : σ} (hf : ∀ x ∈ xs, (f (g x)).run s = .ok (h x, s)) :
    ((xs.map g).mapM f).run s = .ok (xs.map h, s) := by
  induction xs with
  | nil => rfl
  | cons x xs ih =>
    rw [List.forall_mem_cons] at hf
    rw [List.map_cons, List.mapM_cons]
    exact (run_bind_of hf.1 _).trans (run_bind_of (ih hf.2) _)

/-! ### The nodes of values -/

namespace Value

/-- The node of a scalar. -/
def scalarNode {ref : Type} (v : Value) : Node ref :=
  .scalar none v.scalarStyle v.scalarText

mutual

/-- The node of a value in block style. -/
def toNode {ref : Type} : Value → Node ref
  | sequence items => .sequence none (items.map scalarNode)
  | mapping entries => .mapping none (entryNodes entries)
  | v => v.scalarNode

/-- The nodes of the entries of a mapping. -/
def entryNodes {ref : Type} : List (Value × Value) → List (Node ref × Node ref)
  | [] => []
  | (k, v) :: entries => (k.scalarNode, toNode v) :: entryNodes entries

end

theorem entryNodes_eq_map {ref : Type} (entries : List (Value × Value)) :
    (entryNodes entries : List (Node ref × Node ref)) =
      entries.map fun e => (e.1.scalarNode, e.2.toNode) := by
  induction entries with
  | nil => rfl
  | cons e entries ih => rw [entryNodes, ih, List.map_cons]

theorem IsScalar.toNode_eq {ref : Type} {v : Value} (h : v.IsScalar) :
    (v.toNode : Node ref) = v.scalarNode := by
  cases h <;> rfl

theorem IsScalar.blockTokens_eq {v : Value} (h : v.IsScalar) : v.blockTokens = [v.scalarToken] := by
  cases h <;> rfl

end Value

/-- Tokens that a node without an anchor and a tag starts with. -/
def Token.opensNode : Token → Bool
  | .scalar .. | .flowSequenceStart | .blockMappingStart | .blockEntry => true
  | _ => false

theorem Value.IsBlock.exists_opensNode {depth : Nat} {v : Value} (h : IsBlock depth v) :
    ∃ t ts, v.blockTokens = t :: ts ∧ t.opensNode = true := by
  cases h with
  | scalar h => exact ⟨_, _, h.blockTokens_eq, rfl⟩
  | @sequence _ items h => cases items <;> exact ⟨_, _, rfl, rfl⟩
  | mapping hne hkeys hdistinct h => exact ⟨_, _, rfl, rfl⟩

theorem Value.length_le_entryTokens (entries : List (Value × Value)) :
    entries.length ≤ (entryTokens entries).length := by
  induction entries with
  | nil => exact le_rfl
  | cons e entries ih =>
    rw [entryTokens]
    simp only [List.length_cons, List.length_append]
    omega

namespace Reader

/-- Whatever has been noted before, the reader moves from the tokens `ts` to the tokens `rest`,
gives the result and notes nothing. -/
def Takes {α : Type} (read : Reader α) (ts rest : List Token) (result : α) : Prop :=
  ∀ b : Builder, read.run { b with tokens := ts } = .ok (result, { b with tokens := rest })

variable {α β : Type} {ts us rest : List Token}

/-- What one reader leaves, the next one takes up. -/
theorem Takes.bind {read : Reader α} {next : α → Reader β} {a : α} {result : β}
    (hread : read.Takes ts us a) (hnext : (next a).Takes us rest result) :
    (read >>= next).Takes ts rest result := by
  intro b
  rw [run_bind_of (hread b)]
  exact hnext b

theorem takes_pure (a : α) (ts : List Token) : (pure a : Reader α).Takes ts ts a :=
  fun _ => rfl

theorem takes_peek (ts : List Token) : peek.Takes ts ts ts.head? :=
  fun _ => rfl

theorem takes_skip (t : Token) (ts : List Token) : skip.Takes (t :: ts) ts () :=
  fun _ => rfl

theorem takes_partsBound (ts : List Token) : partsBound.Takes ts ts (ts.length + 1) :=
  fun _ => rfl

theorem takes_sees (us ts : List Token) : (sees us).Takes ts ts (ts.head?.any (· ∈ us)) :=
  fun _ => rfl

theorem takes_skipIf (t : Token) (ts : List Token) : (skipIf t).Takes (t :: ts) ts true := by
  refine (takes_sees [t] (t :: ts)).bind ?_
  simp only [List.head?_cons, Option.any_some, List.mem_singleton, decide_true, if_true]
  exact (takes_skip t ts).bind (takes_pure true ts)

theorem takes_skipIf_of_ne {t : Token} (h : ts.head? ≠ some t) : (skipIf t).Takes ts ts false := by
  have hsees : ts.head?.any (· ∈ [t]) = false := by
    cases ts with
    | nil => rfl
    | cons u us => simpa using h
  refine (takes_sees [t] ts).bind ?_
  rw [hsees]
  exact takes_pure false ts

/-- A node that is not absent is read. -/
theorem Takes.readUnless {read : Reader (Node Nat)} {ends : List Token} {t : Token} {n : Node Nat}
    (h : read.Takes (t :: ts) rest n) (ht : t ∉ ends) :
    (readUnless ends read).Takes (t :: ts) rest n := by
  have hsees : (t :: ts).head?.any (· ∈ ends) = false := by simpa using ht
  refine (takes_sees ends (t :: ts)).bind ?_
  rw [hsees]
  exact h

/-! ### Nodes -/

theorem takes_properties {t : Token} (ht : t.opensNode = true) (ts : List Token) :
    properties.Takes (t :: ts) (t :: ts) (none, none) := by
  intro b
  cases t <;> first | rfl | cases ht

theorem Takes.node {depth : Nat} {context : Context} {t : Token} {n : Node Nat}
    (h : (content (node depth) context none false).Takes (t :: ts) rest n)
    (ht : t.opensNode = true) : (node (depth + 1) context).Takes (t :: ts) rest n := by
  rw [Reader.node]
  refine (takes_peek _).bind ?_
  have hproperties := takes_properties ht ts
  cases t <;> first | exact hproperties.bind h | cases ht

theorem takes_content_scalar (read : Context → Reader (Node Nat)) (context : Context)
    (v : Value) (ts : List Token) :
    (content read context none false).Takes (v.scalarToken :: ts) ts v.scalarNode := by
  cases context <;> exact (takes_peek _).bind ((takes_skip _ _).bind (takes_pure _ _))

/-- A scalar token is read as its node. -/
theorem takes_node_scalar (depth : Nat) (context : Context) (v : Value) (ts : List Token) :
    (node (depth + 1) context).Takes (v.scalarToken :: ts) ts v.scalarNode :=
  (takes_content_scalar _ context v ts).node rfl

theorem takes_flowItems (read : Reader (Node Nat)) (first : Bool) (fuel : Nat) (ts : List Token) :
    (flowItems read first (fuel + 1)).Takes (.flowSequenceEnd :: ts) ts [] := by
  rw [flowItems]
  exact (takes_skipIf _ _).bind (takes_pure _ _)

/-- The brackets of an empty sequence. -/
theorem takes_brackets (depth : Nat) (context : Context) (ts : List Token) :
    (node (depth + 1) context).Takes (.flowSequenceStart :: .flowSequenceEnd :: ts) ts
      (.sequence none []) := by
  refine Takes.node ?_ rfl
  have hitems := takes_flowItems (node depth .flow) true (.flowSequenceEnd :: ts).length ts
  cases context <;>
    exact (takes_peek _).bind ((takes_skip _ _).bind ((takes_partsBound _).bind
      (hitems.bind (takes_pure _ _))))

/-- Items with a hyphen each, up to the first token that is none. -/
theorem takes_flushItems {read : Reader (Node Nat)}
    (hread : ∀ (v : Value) (ts : List Token), read.Takes (v.scalarToken :: ts) ts v.scalarNode)
    (hrest : rest.head? ≠ some .blockEntry) (items : List Value) {fuel : Nat}
    (hfuel : items.length < fuel) :
    (flushItems read fuel).Takes
      ((items.flatMap fun v => [Token.blockEntry, v.scalarToken]) ++ rest) rest
      (items.map Value.scalarNode) := by
  induction items generalizing fuel with
  | nil =>
    obtain ⟨fuel, rfl⟩ : ∃ n, fuel = n + 1 := ⟨fuel - 1, by omega⟩
    rw [flushItems]
    exact (takes_skipIf_of_ne hrest).bind (takes_pure _ _)
  | cons v items ih =>
    obtain ⟨fuel, rfl⟩ : ∃ n, fuel = n + 1 := ⟨fuel - 1, by omega⟩
    have hnext := @ih fuel (by simpa using hfuel)
    rw [flushItems]
    refine (takes_skipIf _ _).bind (((hread v _).readUnless ?_).bind (hnext.bind (takes_pure _ _)))
    simp [Value.scalarToken]

/-- Keys and values up to the end of their mapping. -/
theorem takes_blockEntries {read : Reader (Node Nat)}
    (hread : ∀ (v : Value) (ts : List Token), read.Takes (v.scalarToken :: ts) ts v.scalarNode)
    {entries : List (Value × Value)}
    (hvalues : ∀ e ∈ entries, ∀ rest : List Token, rest.head? ≠ some .blockEntry →
      (readUnless [.key, .value, .blockEnd] read).Takes (e.2.blockTokens ++ rest) rest e.2.toNode)
    {fuel : Nat} (hfuel : entries.length < fuel) :
    (blockEntries read fuel).Takes (Value.entryTokens entries ++ .blockEnd :: rest) rest
      (Value.entryNodes entries) := by
  induction entries generalizing fuel with
  | nil =>
    obtain ⟨fuel, rfl⟩ : ∃ n, fuel = n + 1 := ⟨fuel - 1, by omega⟩
    rw [blockEntries]
    exact (takes_skipIf_of_ne (by simp [Value.entryTokens])).bind
      ((takes_skipIf _ _).bind (takes_pure _ _))
  | cons e entries ih =>
    obtain ⟨k, v⟩ := e
    obtain ⟨fuel, rfl⟩ : ∃ n, fuel = n + 1 := ⟨fuel - 1, by omega⟩
    rw [List.forall_mem_cons] at hvalues
    have hnext := @ih hvalues.2 fuel (by simpa using hfuel)
    -- behind a value stands the next key or the end of the mapping, and no further item
    have hhead : (Value.entryTokens entries ++ .blockEnd :: rest).head? ≠ some .blockEntry := by
      cases entries <;> simp [Value.entryTokens]
    have hvalue := hvalues.1 _ hhead
    rw [blockEntries, Value.entryTokens]
    simp only [List.cons_append, List.append_assoc]
    refine (takes_skipIf _ _).bind (((hread k _).readUnless (by simp [Value.scalarToken])).bind
      ((takes_skipIf _ _).bind (hvalue.bind (hnext.bind (takes_pure _ _)))))

/-- The mark that opens a mapping, its entries and the mark that closes it. -/
theorem takes_node_mapping {depth nested : Nat} {context : Context} (hcontext : context ≠ .flow)
    {entries : List (Value × Value)} (h : ∀ e ∈ entries, e.2.IsBlock nested)
    (hvalues : ∀ e ∈ entries, ∀ rest : List Token, rest.head? ≠ some .blockEntry →
      (node (depth + 1) .entry).Takes (e.2.blockTokens ++ rest) rest e.2.toNode)
    (rest : List Token) :
    (node (depth + 2) context).Takes ((Value.mapping entries).blockTokens ++ rest) rest
      (Value.mapping entries).toNode := by
  -- a value starts with a token of its own, so none is taken to be absent
  have hread : ∀ e ∈ entries, ∀ rest : List Token, rest.head? ≠ some .blockEntry →
      (readUnless [.key, .value, .blockEnd] (node (depth + 1) .entry)).Takes
        (e.2.blockTokens ++ rest) rest e.2.toNode := by
    intro e he us hus
    obtain ⟨t, ts, hcons, ht⟩ := (h e he).exists_opensNode
    have hvalue := hvalues e he us hus
    rw [hcons, List.cons_append] at hvalue ⊢
    refine hvalue.readUnless ?_
    cases t <;> simp_all [Token.opensNode]
  have hfuel : entries.length < (Value.entryTokens entries ++ .blockEnd :: rest).length + 1 := by
    have hlength := Value.length_le_entryTokens entries
    rw [List.length_append]
    omega
  have hentries := @takes_blockEntries rest _ (takes_node_scalar depth .entry) _ hread _ hfuel
  rw [Value.blockTokens, Value.toNode, List.cons_append, List.append_assoc]
  refine Takes.node ?_ rfl
  cases context with
  | flow => exact absurd rfl hcontext
  | block =>
    exact (takes_peek _).bind ((takes_skip _ _).bind ((takes_partsBound _).bind
      (hentries.bind (takes_pure _ _))))
  | entry =>
    exact (takes_peek _).bind ((takes_skip _ _).bind ((takes_partsBound _).bind
      (hentries.bind (takes_pure _ _))))

/-- The tokens of a sequence are read as its node, unless another item follows. -/
theorem takes_node_sequence {depth : Nat} (items : List Value)
    (hrest : rest.head? ≠ some .blockEntry) :
    (node (depth + 2) .entry).Takes ((Value.sequence items).blockTokens ++ rest) rest
      (Value.sequence items).toNode := by
  cases items with
  | nil => exact takes_brackets (depth + 1) .entry rest
  | cons v items =>
    have hfuel : (v :: items).length < (((v :: items).flatMap fun v =>
        [Token.blockEntry, v.scalarToken]) ++ rest).length + 1 := by
      simp only [List.length_append, List.length_flatMap, List.length_cons, List.length_nil,
        List.map_const', List.sum_replicate_nat]
      omega
    have hitems := takes_flushItems (takes_node_scalar depth .block) hrest (v :: items) hfuel
    refine Takes.node ?_ rfl
    exact (takes_peek _).bind ((takes_partsBound _).bind (hitems.bind (takes_pure _ _)))

/-- **A value in block style is read as its node**, up to a token that is no hyphen. -/
theorem takes_node {nested depth : Nat} {v : Value} (h : v.IsBlock nested)
    (hdepth : nested + 2 ≤ depth) (hrest : rest.head? ≠ some .blockEntry) :
    (node depth .entry).Takes (v.blockTokens ++ rest) rest v.toNode := by
  induction h generalizing depth rest with
  | @scalar nested v h =>
    obtain ⟨depth, rfl⟩ : ∃ n, depth = n + 1 := ⟨depth - 1, by omega⟩
    rw [h.blockTokens_eq, h.toNode_eq]
    exact takes_node_scalar depth .entry v rest
  | @sequence nested items h =>
    obtain ⟨depth, rfl⟩ : ∃ n, depth = n + 2 := ⟨depth - 2, by omega⟩
    exact takes_node_sequence items hrest
  | @mapping nested entries hne hkeys hdistinct h ih =>
    obtain ⟨depth, rfl⟩ : ∃ n, depth = n + 2 := ⟨depth - 2, by omega⟩
    exact takes_node_mapping (by decide) h (fun e he us hus => ih e he (by omega) hus) rest

/-- The document of a printed mapping has the node of the mapping as its root. -/
theorem run_document {nested depth : Nat} {entries : List (Value × Value)}
    (h : (Value.mapping entries).IsBlock nested) (hdepth : nested + 2 ≤ depth) :
    (document depth).run { tokens := (Value.mapping entries).blockTokens } =
      .ok ((Value.mapping entries).toNode, { tokens := [], handles := Tag.standardHandles }) := by
  -- `takes_node` does not apply to the root, which is no entry; its values are entries again
  have hroot : (node depth .block).Takes ((Value.mapping entries).blockTokens ++ []) []
      (Value.mapping entries).toNode := by
    cases h with
    | scalar h => cases h
    | @mapping nested _ hne hkeys hdistinct h =>
      obtain ⟨depth, rfl⟩ : ∃ n, depth = n + 2 := ⟨depth - 2, by omega⟩
      exact takes_node_mapping (by decide) h
        (fun e he us hus => takes_node (h e he) (by omega) hus) []
  rw [List.append_nil] at hroot
  have hhead : (Value.mapping entries).blockTokens =
      .blockMappingStart :: (Value.entryTokens entries ++ [.blockEnd]) := by rw [Value.blockTokens]
  rw [hhead] at hroot ⊢
  rw [document]
  -- the document has no directives and no mark in front of its root, nor one behind it
  refine (run_bind_of rfl _).trans ((run_bind_of rfl _).trans ((run_bind_of rfl _).trans
    ((run_bind_of rfl _).trans ((run_bind_of rfl _).trans ?_))))
  exact run_bind_of (hroot { tokens := [], handles := Tag.standardHandles }) _

end Reader

/-! ### References -/

/-- A node that holds no reference is followed by itself. -/
theorem run_expand_scalarNode (target? : Nat → Option (Node Nat)) (depth : Nat) (v : Value)
    (left : Nat) : (expand target? depth v.scalarNode).run left = .ok (v.scalarNode, left) := by
  cases depth <;> rfl

/-- **The references of a value in block style**: there are none, so its node stays as it is. -/
theorem run_expand {nested depth : Nat} {v : Value} (h : v.IsBlock nested) (hdepth : nested < depth)
    (target? : Nat → Option (Node Nat)) (left : Nat) :
    (expand target? depth v.toNode).run left = .ok (v.toNode, left) := by
  induction h generalizing depth with
  | @scalar nested v h =>
    rw [h.toNode_eq, h.toNode_eq]
    exact run_expand_scalarNode target? depth v left
  | @sequence nested items h =>
    obtain ⟨depth, rfl⟩ : ∃ n, depth = n + 1 := ⟨depth - 1, by omega⟩
    have hitems : ((items.map Value.scalarNode).mapM (expand target? depth)).run left =
        .ok (items.map Value.scalarNode, left) :=
      run_mapM_map fun v _ => run_expand_scalarNode target? depth v left
    rw [expand, Value.toNode, Value.toNode]
    exact (run_bind_of rfl _).trans (run_bind_of hitems _)
  | @mapping nested entries hne hkeys hdistinct h ih =>
    obtain ⟨depth, rfl⟩ : ∃ n, depth = n + 1 := ⟨depth - 1, by omega⟩
    have hentries : ((Value.entryNodes entries).mapM fun (k, v) =>
        return (← expand target? depth k, ← expand target? depth v)).run left =
        .ok (Value.entryNodes entries, left) := by
      rw [Value.entryNodes_eq_map, Value.entryNodes_eq_map]
      refine run_mapM_map fun e he => ?_
      have hkey := run_expand_scalarNode target? depth e.1 left
      have hvalue := @ih e he depth (by omega)
      exact (run_bind_of hkey _).trans (run_bind_of hvalue _)
    rw [expand, Value.toNode, Value.toNode]
    exact (run_bind_of rfl _).trans (run_bind_of hentries _)

/-- **A printed mapping is read as its node.** -/
theorem Value.tree_ofText_print {nested : Nat} {entries : List (Value × Value)}
    (h : (Value.mapping entries).IsBlock nested) (hnested : nested < depthLimit) :
    Tree.ofText (mapping entries).print = .ok (mapping entries).toNode := by
  have hroot := Reader.run_document h (by omega : nested + 2 ≤ depthLimit + 2)
  simp only [Tree.ofText, tokens_print h, bind, Except.bind, hroot, run_expand h hnested]
  rfl

end ProgramGraph.Yaml
