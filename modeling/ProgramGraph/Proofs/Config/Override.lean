import ProgramGraph.Proofs.Config.Validate
import ProgramGraph.Proofs.Config.YamlFormat

/-!
# A section overrides exactly the fields it names

A section that is a plain mapping replaces those settings of the preset that it names, with its own
values, and leaves all others as they are; this is written out setting by setting as `overriddenBy`.
That a setting without an entry keeps the value of the preset, and does not fall back to its
default, is `Format.merge_mapping`.

A document may leave a section out, or give null for it; both are read as no section
(`Document.dropNulls`), and name nothing. The statements here are about documents whose sections are
left out, null or plain mappings (`isPlainSection`), in any format in which stages read back and
mappings are read by name.
-/

namespace ProgramGraph

open Yaml (Value)

/-! ### Settings with some of them replaced -/

/-- The setting under a name: the value that the entries give it, and what it was if they give none.
-/
def Format.readOr (F : Format) (type : SettingType) (es : List (Value × Value)) (name : String)
    (old : type.Carrier) : type.Carrier :=
  match Value.given es name with
  | none => old
  | some v =>
    match F.readSetting type v with
    | .ok a => a
    | .error _ => old

def TaintConfig.overriddenBy (F : Format) (s : TaintConfig) (es : List (Value × Value)) :
    TaintConfig where
  key := F.readOr (.basic .text) es "taint_key" s.key
  value := F.readOr (.basic .text) es "taint_value" s.value
  maxVisits := F.readOr (.optional .word) es "max_visits" s.maxVisits

def SliceConfig.overriddenBy (F : Format) (s : SliceConfig) (es : List (Value × Value)) :
    SliceConfig where
  maxDepth := F.readOr (.optional .word) es "max_depth" s.maxDepth
  edgeKindKey := F.readOr (.optional .text) es "edge_kind_key" s.edgeKindKey
  edgeKinds := F.readOr (.list .text) es "edge_kinds" s.edgeKinds
  parallelThreshold := F.readOr (.basic .word) es "parallel_threshold" s.parallelThreshold

def ExecutionConfig.overriddenBy (F : Format) (s : ExecutionConfig) (es : List (Value × Value)) :
    ExecutionConfig where
  markerKey := F.readOr (.basic .text) es "marker_key" s.markerKey
  markerValue := F.readOr (.basic .text) es "marker_value" s.markerValue
  markNodes := F.readOr (.basic .flag) es "mark_nodes" s.markNodes
  maxDepth := F.readOr (.optional .word) es "max_depth" s.maxDepth
  maxStates := F.readOr (.optional .word) es "max_states" s.maxStates

def DataFlowConfig.overriddenBy (F : Format) (s : DataFlowConfig) (es : List (Value × Value)) :
    DataFlowConfig where
  defsKey := F.readOr (.basic .text) es "defs_key" s.defsKey
  usesKey := F.readOr (.basic .text) es "uses_key" s.usesKey
  exprKey := F.readOr (.basic .text) es "expr_key" s.exprKey
  valueKey := F.readOr (.basic .text) es "value_key" s.valueKey
  maxIterations := F.readOr (.optional .word) es "max_iterations" s.maxIterations

/-! ### Sections -/

/-- The entries of a section; a section that is left out or null has none. -/
def sectionEntries : Option Value → List (Value × Value)
  | some (.mapping es) => es
  | _ => []

/-- The section is left out, null or a plain mapping. -/
def isPlainSection : Option Value → Bool
  | none => true
  | some .null => true
  | some (.mapping _) => true
  | some _ => false

/-- A section as it is read: null is no section. -/
def dropNull : Option Value → Option Value
  | some .null => none
  | o => o

/-- What is given under a name is the value of an entry with this name. -/
theorem exists_mem_of_given {es : List (Value × Value)} {name : String} {v : Value}
    (h : Value.given es name = some v) : (.string name, v) ∈ es := by
  obtain ⟨⟨k, v⟩, hfind, rfl⟩ := Option.map_eq_some_iff.mp h
  have hmem := List.mem_of_find?_eq_some hfind
  rw [List.find?_eq_some_iff_append] at hfind
  obtain rfl : k = .string name := Value.same_string_iff.mp hfind.1
  exact List.mem_reverse.mp hmem

namespace Section

variable {F : Format} {σ : Type} {sec : Section σ} {es : List (Value × Value)} {o : Option Value}

/-- Every key names a setting, and every value has the type of its setting: it can be read as one.
-/
def Accepts (F : Format) (sec : Section σ) (es : List (Value × Value)) : Prop :=
  ∀ e ∈ es, ∃ f ∈ sec.fields, e.1 = .string f.name ∧ (F.readSetting f.type e.2).isOk = true

instance (F : Format) (sec : Section σ) (es : List (Value × Value)) :
    Decidable (sec.Accepts F es) :=
  decidable_of_iff (es.all fun e => sec.fields.any fun f =>
      e.1.same (.string f.name) && (F.readSetting f.type e.2).isOk) <| by
    simp [Accepts, Value.same_string_iff]

/-- Some key names no setting. -/
def HasUnknownKey (sec : Section σ) (es : List (Value × Value)) : Prop :=
  ∃ e ∈ es, ∀ f ∈ sec.fields, e.1 ≠ .string f.name

instance (sec : Section σ) (es : List (Value × Value)) : Decidable (sec.HasUnknownKey es) :=
  decidable_of_iff (es.any fun e => sec.fields.all fun f => !e.1.same (.string f.name)) <| by
    simp [HasUnknownKey, ← Value.same_string_iff]

/-- The settings with those replaced that a section names. -/
def overridden (F : Format) (sec : Section σ) (s : σ) (o : Option Value) : σ :=
  sec.build fun f => F.readOr f.type (sectionEntries o) f.name (f.get s)

/-- In an accepted section, whatever is given for a setting can be read. -/
theorem Accepts.readSetting_eq_ok (h : sec.Accepts F es) (hsec : sec.IsStage) {f : Field σ}
    (hf : f ∈ sec.fields) {v : Value} (hv : Value.given es f.name = some v) (old : f.type.Carrier) :
    F.readSetting f.type v = .ok (F.readOr f.type es f.name old) := by
  obtain ⟨g, hg, hname, hok⟩ := h _ (exists_mem_of_given hv)
  -- no other setting has the name
  obtain rfl : f = g :=
    List.inj_on_of_nodup_map hsec.nodup_names hf hg (Value.string.inj hname)
  cases hread : F.readSetting f.type v with
  | ok a => simp only [Format.readOr, hv, hread]
  | error reason =>
    rw [hread] at hok
    cases hok

section Merge

variable (hround : F.RoundTrips) (hreads : F.ReadsByName) (hsec : sec.IsStage)
include hround hreads hsec

/-- **A section replaces the settings that it names**, whether it is there or not. -/
theorem Accepts.merge_dropNull (h : sec.Accepts F (sectionEntries o))
    (ho : isPlainSection o = true) (base : σ) :
    F.merge sec base (dropNull o) = .ok (sec.overridden F base o) := by
  have hnothing : sec.build (fun f => f.get base) = base := hsec.build_get base
  match o, ho with
  | none, _ => exact congrArg Except.ok hnothing.symm
  | some .null, _ => exact congrArg Except.ok hnothing.symm
  | some (.mapping es), _ =>
    refine Format.merge_mapping hround hreads hsec base _ ?_ ?_ ?_
    · intro e he
      obtain ⟨f, hf, hname, -⟩ := h e he
      exact ⟨f, hf, hname⟩
    · intro f hf v hv
      exact h.readSetting_eq_ok hsec hf hv (f.get base)
    · intro f hf hnone
      rw [sectionEntries, Format.readOr, hnone]

/-- A key that is no setting is an error. -/
theorem HasUnknownKey.merge_ne (h : sec.HasUnknownKey (sectionEntries o)) (base s : σ) :
    F.merge sec base (dropNull o) ≠ .ok s := by
  intro hok
  match o, h with
  | some (.mapping es), h =>
    have hunknown : ∃ e ∈ es, ∀ f ∈ sec.fields, e.1 ≠ .string f.name := h
    obtain ⟨reason, herror⟩ := Format.merge_unknown hround hreads hsec base hunknown
    cases herror.symm.trans hok

end Merge

end Section

/-! ### Documents -/

/-- The settings with those replaced that a document names. -/
def Config.overriddenBy (F : Format) (c : Config) (d : Document) : Config :=
  { c with
    taint := c.taint.overriddenBy F (sectionEntries d.taint)
    slicing := c.slicing.overriddenBy F (sectionEntries d.slicing)
    execution := c.execution.overriddenBy F (sectionEntries d.execution)
    dataFlow := c.dataFlow.overriddenBy F (sectionEntries d.dataFlow) }

namespace Document

variable {F : Format} {d : Document} {base c : Config}

/-- The sections of a document. -/
def sections (d : Document) : List (Option Value) :=
  [d.taint, d.slicing, d.execution, d.dataFlow]

/-- The document as it is read: a section that is null is none. -/
def dropNulls (d : Document) : Document :=
  { d with
    taint := dropNull d.taint
    slicing := dropNull d.slicing
    execution := dropNull d.execution
    dataFlow := dropNull d.dataFlow }

/-- Every key of a section names a setting of its stage, with a value of its type. -/
structure Accepted (F : Format) (d : Document) : Prop where
  taint : Section.taint.Accepts F (sectionEntries d.taint)
  slicing : Section.slicing.Accepts F (sectionEntries d.slicing)
  execution : Section.execution.Accepts F (sectionEntries d.execution)
  dataFlow : Section.dataFlow.Accepts F (sectionEntries d.dataFlow)

instance (F : Format) (d : Document) : Decidable (d.Accepted F) :=
  decidable_of_iff (Section.taint.Accepts F (sectionEntries d.taint) ∧
      Section.slicing.Accepts F (sectionEntries d.slicing) ∧
      Section.execution.Accepts F (sectionEntries d.execution) ∧
      Section.dataFlow.Accepts F (sectionEntries d.dataFlow))
    ⟨fun h => ⟨h.1, h.2.1, h.2.2.1, h.2.2.2⟩,
      fun h => ⟨h.taint, h.slicing, h.execution, h.dataFlow⟩⟩

/-- Some section has a key that names no setting of its stage. -/
def HasUnknownKey (d : Document) : Prop :=
  Section.taint.HasUnknownKey (sectionEntries d.taint) ∨
    Section.slicing.HasUnknownKey (sectionEntries d.slicing) ∨
    Section.execution.HasUnknownKey (sectionEntries d.execution) ∨
    Section.dataFlow.HasUnknownKey (sectionEntries d.dataFlow)

instance (d : Document) : Decidable d.HasUnknownKey :=
  inferInstanceAs (Decidable (_ ∨ _))

/-- Sections are laid over settings if each of them can be. -/
theorem mergeInto_eq_ok_iff : d.mergeInto F base = .ok c ↔
    ∃ taint slicing execution dataFlow, F.merge Section.taint base.taint d.taint = .ok taint ∧
      F.merge Section.slicing base.slicing d.slicing = .ok slicing ∧
      F.merge Section.execution base.execution d.execution = .ok execution ∧
      F.merge Section.dataFlow base.dataFlow d.dataFlow = .ok dataFlow ∧
      c = { base with taint, slicing, execution, dataFlow } := by
  simp only [mergeInto, bind_eq_ok_iff]
  constructor
  · rintro ⟨taint, ht, slicing, hs, execution, he, dataFlow, hd, hc⟩
    exact ⟨taint, slicing, execution, dataFlow, ht, hs, he, hd, (Except.ok.inj hc).symm⟩
  · rintro ⟨taint, slicing, execution, dataFlow, ht, hs, he, hd, rfl⟩
    exact ⟨taint, ht, slicing, hs, execution, he, dataFlow, hd, rfl⟩

section Merge

variable (hround : F.RoundTrips) (hreads : F.ReadsByName)
include hround hreads

/-- Sections whose keys are all known and whose values all have their types can be laid over any
settings. -/
theorem Accepted.mergeInto_eq (h : d.Accepted F)
    (hplain : ∀ o ∈ d.sections, isPlainSection o = true) (base : Config) :
    d.dropNulls.mergeInto F base = .ok (base.overriddenBy F d) := by
  simp only [sections, List.forall_mem_cons] at hplain
  obtain ⟨ptaint, pslicing, pexecution, pdataFlow, -⟩ := hplain
  exact mergeInto_eq_ok_iff.mpr ⟨_, _, _, _,
    h.taint.merge_dropNull hround hreads .taint ptaint base.taint,
    h.slicing.merge_dropNull hround hreads .slicing pslicing base.slicing,
    h.execution.merge_dropNull hround hreads .execution pexecution base.execution,
    h.dataFlow.merge_dropNull hround hreads .dataFlow pdataFlow base.dataFlow, rfl⟩

/-- A document with a key that is no setting cannot be laid over any settings. -/
theorem HasUnknownKey.mergeInto_ne (h : d.HasUnknownKey) :
    d.dropNulls.mergeInto F base ≠ .ok c := by
  intro hc
  obtain ⟨_, _, _, _, htaint, hslicing, hexecution, hdataFlow, -⟩ := mergeInto_eq_ok_iff.mp hc
  rcases h with h | h | h | h
  · exact h.merge_ne hround hreads .taint _ _ htaint
  · exact h.merge_ne hround hreads .slicing _ _ hslicing
  · exact h.merge_ne hround hreads .execution _ _ hexecution
  · exact h.merge_ne hround hreads .dataFlow _ _ hdataFlow

end Merge

section Read

variable {p : Preset} (hversion : d.version = 1) (hp : Preset.ofName? d.preset = some p)
include hversion hp

/-- The outcome of laying the sections over the preset is validated. -/
theorem toConfig_of_merged (hc : d.mergeInto F (Config.ofPreset p) = .ok c) :
    d.toConfig F = c.validated := by
  have hsupported : ¬ d.version ∉ supportedVersions := by simp [hversion, supportedVersions]
  simp only [toConfig, if_neg hsupported, hp, hc]

/-- Sections that cannot be laid over the preset are an error of the document. -/
theorem toConfig_of_not_merged {reason : String}
    (hc : d.mergeInto F (Config.ofPreset p) = .error reason) :
    d.toConfig F = .error (.yaml reason) := by
  have hsupported : ¬ d.version ∉ supportedVersions := by simp [hversion, supportedVersions]
  simp only [toConfig, if_neg hsupported, hp, hc]

end Read

end Document

namespace Config

/-- What the stages report about their settings, one stage after the other. -/
def faults (c : Config) : List ConfigError :=
  [c.taint.validate, c.slicing.validate, c.execution.validate, c.dataFlow.validate].filterMap
    fun
      | .ok () => none
      | .error cause => some cause

/-- The settings themselves, if no stage reports a fault, and otherwise the first fault. -/
def outcome (c : Config) : Except ConfigError Config :=
  match c.faults with
  | [] => .ok c
  | cause :: _ => .error cause

/-- Validation reports the first fault. -/
theorem validated_eq_outcome (c : Config) : c.validated = c.outcome := by
  rw [validated, validate, outcome, faults]
  cases c.taint.validate with
  | error cause => rfl
  | ok _ =>
    cases c.slicing.validate with
    | error cause => rfl
    | ok _ =>
      cases c.execution.validate with
      | error cause => rfl
      | ok _ => cases c.dataFlow.validate <;> rfl

/-- What passes validation is valid. -/
theorem validate_of_validated {c c' : Config} (h : c.validated = .ok c') :
    c'.validate = .ok () := by
  rw [validated] at h
  cases hc : c.validate with
  | error cause => simp [hc, Except.map] at h
  | ok _ =>
    simp only [hc, Except.map, Except.ok.injEq] at h
    rw [← h, hc]

/-- Every configuration that is read from a text is valid. -/
theorem validate_of_ofText {F : Format} {text : String} {c : Config} (h : ofText F text = .ok c) :
    c.validate = .ok () := by
  rw [ofText] at h
  split at h
  · rw [Document.toConfig] at h
    split at h
    · cases h
    · split at h
      · cases h
      · split at h
        · cases h
        · exact validate_of_validated h
  · cases h

/-- **A section overrides exactly the settings it names.** If every key of a document is a setting
of its stage with a value of its type, then the text is read as the preset with the named settings
replaced, unless a stage reports a fault; then it is the first fault. A key that is no setting of
its stage is an error of the document. And whatever is read from any text is valid. -/
theorem ofText_overrides (F : Format) (hround : F.RoundTrips) (hreads : F.ReadsByName)
    (text : String) :
    (∀ c, ofText F text = .ok c → c.validate = .ok ()) ∧
      ∀ d p, F.parse text = .ok d.dropNulls → d.version = 1 → Preset.ofName? d.preset = some p →
        (∀ o ∈ d.sections, isPlainSection o = true) →
          (d.Accepted F → ofText F text = ((ofPreset p).overriddenBy F d).outcome) ∧
            (d.HasUnknownKey → ∃ reason, ofText F text = .error (.yaml reason)) := by
  refine ⟨fun c => validate_of_ofText, ?_⟩
  intro d p hd hversion hp hplain
  have htext : ofText F text = d.dropNulls.toConfig F := by rw [ofText, hd]
  rw [htext]
  constructor
  · intro haccepted
    have hmerge := haccepted.mergeInto_eq hround hreads hplain (ofPreset p)
    rw [Document.toConfig_of_merged (d := d.dropNulls) hversion hp hmerge, validated_eq_outcome]
  · intro hunknown
    cases hmerge : d.dropNulls.mergeInto F (ofPreset p) with
    | error reason =>
      exact ⟨reason, Document.toConfig_of_not_merged (d := d.dropNulls) hversion hp hmerge⟩
    | ok c => exact absurd hmerge (hunknown.mergeInto_ne hround hreads)

/-- A document with a null setting and a null section. -/
def textWithNulls : String :=
  "version: 1\npreset: Fast\ntaint:\n  max_visits: null\n  taint_key: k\nslicing: null\n"

/-- Its values. -/
def documentWithNulls : Document where
  version := 1
  preset := "Fast"
  taint := some (.mapping [(.string "max_visits", .null), (.string "taint_key", .string "k")])
  slicing := some .null

/-- A document with a key that is a setting of another stage. -/
def textWithStrayKey : String :=
  "version: 1\npreset: fast\ntaint:\n  max_depth: 1\nslicing: null\n"

/-- Its values. -/
def documentWithStrayKey : Document where
  version := 1
  preset := "fast"
  taint := some (.mapping [(.string "max_depth", .int 1)])
  slicing := some .null

/-- Which of the two documents was read? Equality of values cannot be decided, so that the documents
are told apart by their form. -/
def recognized : Document → Option Bool
  | ⟨1, "Fast", some (.mapping [(.string "max_visits", .null),
      (.string "taint_key", .string "k")]), none, none, none⟩ => some true
  | ⟨1, "fast", some (.mapping [(.string "max_depth", .int 1)]), none, none, none⟩ => some false
  | _ => none

theorem parse_textWithNulls :
    Format.yaml.parse textWithNulls = .ok documentWithNulls.dropNulls := by
  have hread : (Format.yaml.parse textWithNulls).toOption.bind recognized = some true := by
    decide +kernel
  obtain ⟨d, hd, h⟩ := Option.bind_eq_some_iff.mp hread
  rw [toOption_eq_some_iff] at hd
  unfold recognized at h
  split at h
  · exact hd
  · cases h
  · cases h

theorem parse_textWithStrayKey :
    Format.yaml.parse textWithStrayKey = .ok documentWithStrayKey.dropNulls := by
  have hread : (Format.yaml.parse textWithStrayKey).toOption.bind recognized = some false := by
    decide +kernel
  obtain ⟨d, hd, h⟩ := Option.bind_eq_some_iff.mp hread
  rw [toOption_eq_some_iff] at hd
  unfold recognized at h
  split at h
  · cases h
  · exact hd
  · cases h

/-- A null setting replaces the budget of the preset and a null section names no setting; a setting
of another stage is an unknown key. -/
theorem ofText_overrides_nulls :
    ofText .yaml textWithNulls =
        .ok { ofPreset .fast with taint := { key := "k", maxVisits := none } } ∧
      ∃ reason, ofText .yaml textWithStrayKey = .error (.yaml reason) := by
  have hoverrides := ofText_overrides .yaml Format.roundTrips_yaml Format.readsByName_yaml
  constructor
  · exact ((hoverrides textWithNulls).2 documentWithNulls .fast parse_textWithNulls rfl (by decide)
      (by decide)).1 (by decide)
  · exact ((hoverrides textWithStrayKey).2 documentWithStrayKey .fast parse_textWithStrayKey rfl
      (by decide) (by decide)).2 (by decide)

end Config

end ProgramGraph
