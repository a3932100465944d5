/-!
# Errors

What can go wrong, as causes, and the wording of each cause in one function per type.
`ConfigError` belongs to reading and validating a configuration, `Error` to everything else.
-/

namespace ProgramGraph

/-- What can be wrong with a configuration. -/
inductive ConfigError where
  /-- A number lies outside its closed range. -/
  | range (field value min max hint : String)
  /-- The document has a version that cannot be read. -/
  | unsupportedVersion (found : Nat) (supported : List Nat)
  /-- No preset has this name. -/
  | unknownPreset (name : String)
  /-- A text or a list that must hold something is empty. -/
  | emptyField (field : String)
  /-- The document cannot be fetched, or is not text. -/
  | io (reason : String)
  /-- The document is not well formed, or a part of it has the wrong shape. -/
  | yaml (reason : String)
deriving DecidableEq, Repr

/-- Names of the presets, as error texts list them. -/
def presetNames : List String := ["fast", "balanced", "thorough", "custom"]

/-- The text shown for an unknown preset. -/
def unknownPresetMessage (name : String) : String :=
  s!"Unknown preset '{name}'. Valid presets: " ++ ", ".intercalate presetNames

namespace ConfigError

/-- The text shown for the error. -/
def message : ConfigError → String
  | range field value min max hint =>
    s!"Invalid range for field '{field}': {value} not in {min}..={max}. {hint}"
  | unsupportedVersion found supported =>
    s!"Unsupported configuration version {found}. Supported versions: " ++
      ", ".intercalate (supported.map toString)
  | unknownPreset name => unknownPresetMessage name
  | emptyField field => s!"Field '{field}' must not be empty"
  | io reason => s!"IO error: {reason}"
  | yaml reason => s!"YAML parsing error: {reason}"

end ConfigError

/-- What can go wrong outside reading a configuration. -/
inductive Error where
  | config (cause : ConfigError)
  /-- A property holds a text that is not of the expected type. -/
  | propertyType (key value expected : String)
  | analysis (text : String)
deriving DecidableEq, Repr

namespace Error

/-- The text shown for the error. -/
def message : Error → String
  | config cause => "Configuration error: " ++ cause.message
  | propertyType key value expected =>
    s!"Property '{key}' holds '{value}', expected {expected}"
  | analysis text => "Analysis error: " ++ text

end Error

end ProgramGraph
