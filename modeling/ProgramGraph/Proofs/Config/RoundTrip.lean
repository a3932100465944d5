import ProgramGraph.Proofs.Config.YamlFormat

/-!
# Written configurations read back

A configuration that is written with every setting reads back as itself if it is valid, and as the
first of its faults otherwise, whatever texts, budgets and flags it holds.

The text gives back the document, in a format that keeps documents (`Format.KeepsDocuments`). The
document, laid over the preset that it names, gives back the configuration, whatever the settings of
the preset are (`Config.mergeInto_toDocument`), since it names every setting of every stage.
-/

namespace ProgramGraph

open Yaml (Value)

/-- The name of a preset is read as the preset. -/
theorem Preset.ofName?_name (p : Preset) : Preset.ofName? p.name = some p := by
  cases p <;> decide

namespace Config

variable {F : Format} {c base : Config} {d : Document}

/-- The document of a configuration has a section for each stage, with all its settings. -/
theorem toDocument_eq_ok_iff : c.toDocument F = .ok d ↔
    ∃ taint slicing execution dataFlow, F.toValue Section.taint c.taint = .ok taint ∧
      F.toValue Section.slicing c.slicing = .ok slicing ∧
      F.toValue Section.execution c.execution = .ok execution ∧
      F.toValue Section.dataFlow c.dataFlow = .ok dataFlow ∧
      d = ⟨1, c.preset.name, some taint, some slicing, some execution, some dataFlow⟩ := by
  simp only [toDocument, bind_eq_ok_iff]
  constructor
  · rintro ⟨taint, ht, slicing, hs, execution, he, dataFlow, hf, hd⟩
    exact ⟨taint, slicing, execution, dataFlow, ht, hs, he, hf, (Except.ok.inj hd).symm⟩
  · rintro ⟨taint, slicing, execution, dataFlow, ht, hs, he, hf, rfl⟩
    exact ⟨taint, ht, slicing, hs, execution, he, dataFlow, hf, rfl⟩

/-- Every configuration can be written as a document. -/
theorem exists_toDocument (hround : F.RoundTrips) (c : Config) :
    ∃ d, c.toDocument F = .ok d := by
  obtain ⟨taint, ht, -⟩ := hround Section.taint .taint c.taint
  obtain ⟨slicing, hs, -⟩ := hround Section.slicing .slicing c.slicing
  obtain ⟨execution, he, -⟩ := hround Section.execution .execution c.execution
  obtain ⟨dataFlow, hf, -⟩ := hround Section.dataFlow .dataFlow c.dataFlow
  exact ⟨_, toDocument_eq_ok_iff.mpr ⟨_, _, _, _, ht, hs, he, hf, rfl⟩⟩

/-- **The document of a configuration gives it back**, laid over any settings of its preset. -/
theorem mergeInto_toDocument (hround : F.RoundTrips) (hd : c.toDocument F = .ok d)
    (hbase : base.preset = c.preset) : d.mergeInto F base = .ok c := by
  obtain ⟨taint, slicing, execution, dataFlow, ht, hs, he, hf, rfl⟩ := toDocument_eq_ok_iff.mp hd
  simp only [Document.mergeInto, Format.merge_toValue hround .taint base.taint ht,
    Format.merge_toValue hround .slicing base.slicing hs,
    Format.merge_toValue hround .execution base.execution he,
    Format.merge_toValue hround .dataFlow base.dataFlow hf, bind, Except.bind, hbase]
  rfl

/-- The settings of a preset say which preset they are. -/
theorem preset_ofPreset (p : Preset) : (ofPreset p).preset = p := by
  cases p <;> rfl

/-- The document of a configuration describes it. -/
theorem toConfig_toDocument (hround : F.RoundTrips) (hd : c.toDocument F = .ok d) :
    d.toConfig F = c.validated := by
  have hmerge := mergeInto_toDocument hround hd (preset_ofPreset c.preset)
  obtain ⟨_, _, _, _, -, -, -, -, rfl⟩ := toDocument_eq_ok_iff.mp hd
  have hversion : 1 ∈ Document.supportedVersions := by decide
  rw [Document.toConfig, if_neg (not_not.mpr hversion), Preset.ofName?_name]
  simp only [hmerge]

/-- **A written configuration reads back** if it is valid, and what is wrong with it is reported
otherwise. -/
theorem ofText_toText (F : Format) (hround : F.RoundTrips) (hdocuments : F.KeepsDocuments)
    (c : Config) :
    ∃ text, c.toText F = .ok text ∧ ofText F text = c.validate.map fun _ => c := by
  obtain ⟨d, hd⟩ := exists_toDocument hround c
  obtain ⟨text, hprint, hparse⟩ := hdocuments c d hd
  refine ⟨text, ?_, ?_⟩
  · simp only [toText, hd, hprint, bind, Except.bind]
  · rw [ofText, hparse]
    exact toConfig_toDocument hround hd

/-- Settings whose texts look like other values, or have to be quoted. -/
def quotedConfig : Config :=
  { ofPreset .fast with
    taint := { key := "yes", value := "it's: \"x\" # \n", maxVisits := none }
    slicing := { edgeKindKey := some "null", edgeKinds := ["", "-", "1e3"] } }

/-- In YAML such settings read back, and a key that is empty is reported. -/
theorem ofText_toText_quoted :
    (∃ text, quotedConfig.toText .yaml = .ok text ∧ ofText .yaml text = .ok quotedConfig) ∧
      ∃ text, { quotedConfig with taint.key := "" }.toText .yaml = .ok text ∧
        ofText .yaml text = .error (.emptyField "taint_key") := by
  have hroundTrip := ofText_toText .yaml Format.roundTrips_yaml Format.keepsDocuments_yaml
  exact ⟨hroundTrip quotedConfig, hroundTrip { quotedConfig with taint.key := "" }⟩

end Config

end ProgramGraph
