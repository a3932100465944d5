import ProgramGraph.Config.Basic
import ProgramGraph.Config.Section

/-!
# Configuration documents

A `Document` names a version and a preset, and may have a section for each stage.
`Document.toConfig` lays its sections over the preset and validates the outcome;
`Config.toDocument` writes every setting out. `Config.ofText` and `Config.toText` do the same on
texts.

Texts and values belong to a `Format`, which is a parameter of everything here: it reads and writes
documents, and turns the settings of a stage into a value and back. A section is laid over settings
by way of these values (`Format.merge`).

Checks are made in this order: the form of the document, its version, the name of its preset, its
sections one after the other, and at last the settings themselves.
-/

namespace ProgramGraph

open Yaml (Value)

/-- A configuration as it is written down. -/
structure Document where
  version : Nat
  preset : String
  taint : Option Value := none
  slicing : Option Value := none
  execution : Option Value := none
  dataFlow : Option Value := none
deriving Repr, Inhabited

/-- How documents and settings are written down. Whatever goes wrong has a reason. -/
structure Format where
  /-- The document of a text. -/
  parse : String → Except String Document
  /-- The text of a document. -/
  print : Document → Except String String
  /-- The setting of a type that a value stands for. -/
  readSetting : SettingReader
  /-- The value that stands for the settings of a stage. -/
  toValue : {σ : Type} → Section σ → σ → Except String Value
  /-- The settings of a stage that a value stands for. -/
  ofValue : {σ : Type} → Section σ → Value → Except String σ

namespace Format

/-- Lays a section of a document over settings. The settings are written as a value, the entries of
the section are put into it one after the other, and what comes out is read as settings. A section
that is no mapping is read by itself. -/
def merge (F : Format) {σ : Type} (sec : Section σ) (base : σ) :
    Option Value → Except String σ
  | none => .ok base
  | some overlay => do
    match ← F.toValue sec base, overlay with
    | .mapping fields, .mapping overrides =>
      F.ofValue sec (.mapping (overrides.foldl Value.insert fields))
    | _, other => F.ofValue sec other

end Format

namespace Document

/-- The versions of documents that can be read. -/
def supportedVersions : List Nat := [1]

/-- Lays the sections over the preset, one after the other. -/
def mergeInto (F : Format) (d : Document) (base : Config) : Except String Config := do
  let taint ← F.merge Section.taint base.taint d.taint
  let slicing ← F.merge Section.slicing base.slicing d.slicing
  let execution ← F.merge Section.execution base.execution d.execution
  let dataFlow ← F.merge Section.dataFlow base.dataFlow d.dataFlow
  return { base with taint, slicing, execution, dataFlow }

/-- The configuration that a document describes. -/
def toConfig (F : Format) (d : Document) : Except ConfigError Config :=
  if d.version ∉ supportedVersions then
    .error (.unsupportedVersion d.version supportedVersions)
  else match Preset.ofName? d.preset with
    | none => .error (.unknownPreset d.preset)
    | some preset =>
      match d.mergeInto F (Config.ofPreset preset) with
      | .error reason => .error (.yaml reason)
      | .ok c => c.validated

end Document

namespace Config

/-- The document that writes every setting out. -/
def toDocument (F : Format) (c : Config) : Except String Document := do
  return {
    version := 1
    preset := c.preset.name
    taint := some (← F.toValue Section.taint c.taint)
    slicing := some (← F.toValue Section.slicing c.slicing)
    execution := some (← F.toValue Section.execution c.execution)
    dataFlow := some (← F.toValue Section.dataFlow c.dataFlow) }

/-- Reads and validates a configuration. -/
def ofText (F : Format) (text : String) : Except ConfigError Config :=
  match F.parse text with
  | .ok d => d.toConfig F
  | .error reason => .error (.yaml reason)

/-- Writes a configuration with every setting. -/
def toText (F : Format) (c : Config) : Except ConfigError String :=
  match c.toDocument F >>= F.print with
  | .ok text => .ok text
  | .error reason => .error (.yaml reason)

/-- Reads and validates the configuration in a file with these bytes; `none` is a file that is not
there. -/
def ofFile (F : Format) (bytes : Option ByteArray) : Except ConfigError Config :=
  match bytes with
  | none => .error (.io "No such file")
  | some bytes =>
    match String.fromUTF8? bytes with
    | none => .error (.io "stream did not contain valid UTF-8")
    | some text => ofText F text

end Config

end ProgramGraph
