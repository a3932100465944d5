import ProgramGraph.Config.YamlFormat
import ProgramGraph.Proofs.Config.Merge
import ProgramGraph.Proofs.Text.Integer
import ProgramGraph.Proofs.Yaml.Value

/-!
# YAML keeps the promises of a format

In `Format.yaml` a stage reads back from the value that is written for it, and a mapping is read by
name, as in every `Format` that is of use (`Format.roundTrips_yaml`, `Format.readsByName_yaml`). And
the text of a document that writes every setting out gives back the document
(`Format.keepsDocuments_yaml`), whatever texts, budgets and flags it holds: such a document is a
mapping in block style, for which the printer and the reader are inverse.
-/

namespace ProgramGraph

open Yaml (Node Tree Value)

/-! ### Settings -/

namespace BasicType

/-- A single setting reads back. -/
theorem ofValue_toValue (type : BasicType) (a : type.Carrier) :
    type.ofValue (type.toValue a) = .ok a := by
  cases type with
  | text => rfl
  | word =>
    have hrange : 0 ≤ (a.toNat : Int) ∧ (a.toNat : Int) < Int.pow 2 64 :=
      ⟨Int.natCast_nonneg _, Text.natCast_lt_pow a.toNat_lt⟩
    simp only [ofValue, toValue, Value.untag, if_pos hrange, Int.toNat_natCast, UInt64.ofNat_toNat]
  | flag => rfl

theorem isScalar_toValue (type : BasicType) (a : type.Carrier) : (type.toValue a).IsScalar := by
  cases type with
  | text => exact .string a
  | word => exact .word a.toNat_lt
  | flag => exact .bool a

/-- No single setting is written as null. -/
theorem toValue_ne_null (type : BasicType) (a : type.Carrier) : type.toValue a ≠ .null := by
  cases type <;> exact nofun

end BasicType

namespace SettingType

/-- A setting reads back. Null stands for a missing one only. -/
theorem ofValue_toValue (type : SettingType) (a : type.Carrier) :
    type.ofValue (type.toValue a) = .ok a := by
  cases type with
  | basic type => exact type.ofValue_toValue a
  | optional type =>
    cases a with
    | none => rfl
    | some a =>
      have hvalue : ofValue (.optional type) (type.toValue a) =
          (type.ofValue (type.toValue a)).map some := by
        have hne := type.toValue_ne_null a
        simp only [ofValue]
      rw [toValue, hvalue, type.ofValue_toValue]
      rfl
  | list type =>
    change (List.map type.toValue a).mapM type.ofValue = .ok a
    induction a with
    | nil => rfl
    | cons x items ih =>
      rw [List.map_cons, List.mapM_cons, type.ofValue_toValue, ih]
      rfl

/-- A setting is written on one line, or as a list with one line for each item. -/
theorem isBlock_toValue (type : SettingType) (a : type.Carrier) : (type.toValue a).IsBlock 0 := by
  cases type with
  | basic type => exact .scalar (type.isScalar_toValue a)
  | optional type =>
    cases a with
    | none => exact .scalar .null
    | some a => exact .scalar (type.isScalar_toValue a)
  | list type =>
    refine .sequence fun v hv => ?_
    obtain ⟨x, -, rfl⟩ := List.mem_map.mp hv
    exact type.isScalar_toValue x

end SettingType

/-! ### Mappings -/

instance (s : String) : Decidable (Value.IsKey (.string s)) :=
  decidable_of_iff (((Yaml.printText s).toList.map Char.utf8Size).sum ≤ Yaml.Scan.keyReach)
    ⟨fun h => ⟨s, rfl, h⟩, by rintro ⟨_, ⟨⟩, h⟩; exact h⟩

/-- **A mapping from names to values** is printed in block style if its values are. -/
theorem isBlock_mapping {entries : List (String × Value)} {depth : Nat} (hne : entries ≠ [])
    (hkeys : ∀ name ∈ entries.map Prod.fst, (Value.string name).IsKey)
    (hnames : (entries.map Prod.fst).Nodup) (hvalues : ∀ e ∈ entries, e.2.IsBlock depth) :
    (Value.mapping (entries.map fun e => (.string e.1, e.2))).IsBlock (depth + 1) := by
  refine .mapping ?_ ?_ (Value.hasDuplicateKey_eq_false hnames ?_) ?_
  · simpa using hne
  · intro e he
    obtain ⟨d, hd, rfl⟩ := List.mem_map.mp he
    exact hkeys d.1 (List.mem_map_of_mem hd)
  · rw [List.map_map, List.map_map]
    rfl
  · intro e he
    obtain ⟨d, hd, rfl⟩ := List.mem_map.mp he
    exact hvalues d hd

/-- Each setting is found under its name. -/
theorem Section.lookup_map {σ : Type} {fields : List (Field σ)} {value : Field σ → Value}
    (hnames : (fields.map Field.name).Nodup) {f : Field σ} (hf : f ∈ fields) :
    Value.lookup (fields.map fun f => (.string f.name, value f)) f.name = some (value f) := by
  induction fields with
  | nil => cases hf
  | cons g fields ih =>
    rw [List.map_cons, List.nodup_cons] at hnames
    rw [List.map_cons, Value.lookup_cons]
    rcases List.mem_cons.mp hf with rfl | hf
    · exact if_pos (Value.same_string_iff.mpr rfl)
    · have hne : ¬ (Value.string g.name).same (.string f.name) = true := by
        intro hsame
        have heq := Value.string.inj (Value.same_string_iff.mp hsame)
        exact hnames.1 (heq ▸ List.mem_map_of_mem hf)
      rw [if_neg hne]
      exact ih hnames.2 hf

/-- The names of the settings of a stage are short enough for keys. -/
theorem Section.IsStage.isKey {σ : Type} {sec : Section σ} (h : sec.IsStage) :
    ∀ name ∈ sec.names, (Value.string name).IsKey := by
  cases h <;> decide

/-- **The settings of a stage are printed in block style.** -/
theorem Section.IsStage.isBlock_toValue {σ : Type} {sec : Section σ} (h : sec.IsStage) (s : σ) :
    (sec.toValue s).IsBlock 1 := by
  have hnames : (sec.fields.map fun f => (f.name, f.type.toValue (f.get s))).map Prod.fst =
      sec.names := by simp [names]
  have hblock : (Value.mapping ((sec.fields.map fun f =>
      (f.name, f.type.toValue (f.get s))).map fun e => (.string e.1, e.2))).IsBlock 1 := by
    refine isBlock_mapping ?_ ?_ ?_ ?_
    · cases h <;> exact List.cons_ne_nil _ _
    · rw [hnames]
      exact h.isKey
    · rw [hnames]
      exact h.nodup_names
    · simpa using fun f _ => f.type.isBlock_toValue (f.get s)
  rwa [List.map_map] at hblock

/-! ### Documents -/

namespace Document

/-- Keys that are texts read as these texts. -/
theorem mapM_textOf (entries : List (String × Value)) :
    ((Value.entryNodes (entries.map fun e => (.string e.1, e.2))).mapM fun (k, v) =>
      return (← textOf k, v)) = .ok (entries.map fun e => (e.1, e.2.toNode)) := by
  induction entries with
  | nil => rfl
  | cons e entries ih =>
    rw [List.map_cons, Value.entryNodes, List.mapM_cons, ih]
    rfl

/-- A section that is a mapping reads back. -/
theorem sectionOf_toNode {entries : List (Value × Value)} {depth : Nat}
    (h : (Value.mapping entries).IsBlock depth) :
    sectionOf (Value.mapping entries).toNode = .ok (some (.mapping entries)) := by
  have htree := h.ofTree_toNode
  rw [Value.toNode] at htree ⊢
  rw [sectionOf, htree]
  · rfl
  all_goals
    intros
    contradiction

/-- The section of a stage is found by its name and read back. -/
theorem section?_toValue {σ : Type} {sec : Section σ} (hsec : sec.IsStage) (s : σ)
    {entries : List (String × Tree)} {name : String}
    (h : entries.lookup name = some (sec.toValue s).toNode) :
    Document.section? entries name = .ok (some (sec.toValue s)) := by
  rw [section?, h]
  exact sectionOf_toNode (hsec.isBlock_toValue s)

end Document

namespace Config

/-- The document that writes every setting out in YAML. -/
def yamlDocument (c : Config) : Document where
  version := 1
  preset := c.preset.name
  taint := some (Section.taint.toValue c.taint)
  slicing := some (Section.slicing.toValue c.slicing)
  execution := some (Section.execution.toValue c.execution)
  dataFlow := some (Section.dataFlow.toValue c.dataFlow)

/-- The entries of this document. -/
def documentEntries (c : Config) : List (String × Value) :=
  [("version", .int 1), ("preset", .string c.preset.name),
    ("taint", Section.taint.toValue c.taint), ("slicing", Section.slicing.toValue c.slicing),
    ("execution", Section.execution.toValue c.execution),
    ("data_flow", Section.dataFlow.toValue c.dataFlow)]

theorem toValue_yamlDocument (c : Config) :
    c.yamlDocument.toValue = .mapping (c.documentEntries.map fun e => (.string e.1, e.2)) :=
  rfl

/-- The document is printed in block style. -/
theorem isBlock_yamlDocument (c : Config) : c.yamlDocument.toValue.IsBlock 2 := by
  rw [toValue_yamlDocument]
  have hnames : c.documentEntries.map Prod.fst = Document.entryNames := rfl
  refine isBlock_mapping (by simp [documentEntries]) ?_ ?_ ?_
  · rw [hnames]
    decide
  · rw [hnames]
    decide
  · simp only [documentEntries, List.forall_mem_cons]
    exact ⟨.scalar (.word (n := 1) (by decide)), .scalar (.string _),
      Section.IsStage.taint.isBlock_toValue _, Section.IsStage.slicing.isBlock_toValue _,
      Section.IsStage.execution.isBlock_toValue _, Section.IsStage.dataFlow.isBlock_toValue _,
      by simp⟩

/-- The entries as they are read, with their values still to be understood. -/
def documentTrees (c : Config) : List (String × Tree) :=
  c.documentEntries.map fun e => (e.1, e.2.toNode)

/-- The node of the document means the document. -/
theorem ofTree_yamlDocument (c : Config) :
    Document.ofTree c.yamlDocument.toValue.toNode = .ok c.yamlDocument := by
  -- each entry is found by its name, whatever the settings are
  have hnames : Document.checkNames (c.documentTrees.map Prod.fst) = .ok () := rfl
  have hversion : Document.require c.documentTrees "version" = .ok (.scalar none .plain "1") := rfl
  have hpreset : Document.require c.documentTrees "preset" =
      .ok (Value.string c.preset.name).scalarNode := rfl
  have htaint := Document.section?_toValue .taint c.taint
    (rfl : c.documentTrees.lookup "taint" = _)
  have hslicing := Document.section?_toValue .slicing c.slicing
    (rfl : c.documentTrees.lookup "slicing" = _)
  have hexecution := Document.section?_toValue .execution c.execution
    (rfl : c.documentTrees.lookup "execution" = _)
  have hdataFlow := Document.section?_toValue .dataFlow c.dataFlow
    (rfl : c.documentTrees.lookup "data_flow" = _)
  rw [toValue_yamlDocument, Value.toNode, Document.ofTree, Document.mapM_textOf, ← documentTrees]
  simp only [bind, Except.bind, hnames, hversion, hpreset, htaint, hslicing, hexecution, hdataFlow]
  rfl

end Config

/-! ### The promises -/

namespace Format

/-- In YAML a stage reads back from the value that is written for it. -/
theorem roundTrips_yaml : yaml.RoundTrips := by
  intro σ sec hsec s
  have hkeys : (sec.fields.map fun f => (Value.string f.name, f.type.toValue (f.get s))).map
      Prod.fst = sec.names.map Value.string := by
    rw [Section.names, List.map_map, List.map_map]
    rfl
  refine ⟨_, rfl, hkeys, ?_⟩
  have hvalues : ∀ f ∈ sec.fields, ∃ v,
      Value.lookup (sec.fields.map fun f => (.string f.name, f.type.toValue (f.get s))) f.name =
        some v ∧ f.type.ofValue v = .ok (f.get s) := fun f hf =>
    ⟨_, Section.lookup_map hsec.nodup_names hf, f.type.ofValue_toValue (f.get s)⟩
  have hread := Section.read_eq_ok hsec.nodup_names hkeys hvalues
  rwa [hsec.build_get] at hread

/-- In YAML a mapping is read by name. -/
theorem readsByName_yaml : yaml.ReadsByName :=
  fun _ _ _ => rfl

/-- **The document of a configuration reads back** from its YAML text. -/
theorem keepsDocuments_yaml : yaml.KeepsDocuments := by
  intro c d hd
  obtain rfl : c.yamlDocument = d := Except.ok.inj hd
  refine ⟨_, rfl, ?_⟩
  have htree : Tree.ofText c.yamlDocument.toValue.print = .ok c.yamlDocument.toValue.toNode :=
    Value.tree_ofText_print c.isBlock_yamlDocument (by decide)
  change (Tree.ofText c.yamlDocument.toValue.print >>= Document.ofTree) = .ok c.yamlDocument
  rw [htree]
  exact c.ofTree_yamlDocument

end Format

end ProgramGraph
