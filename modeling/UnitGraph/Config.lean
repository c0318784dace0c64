import UnitGraph.Count
import UnitGraph.Decimal.Layout
import UnitGraph.Text

/-! # Detection settings -/

namespace UnitGraph

structure Config where
  threshold : Float := 0.9
  incrementMarker : String := "for.inc"
  conditionMarker : String := "for.cond"
  mainFunction : String := "main"
  deriving BEq

namespace Config

instance : Inhabited Config := ⟨{}⟩

/-- The settings in the order in which they are written and checked. -/
inductive Field
  | threshold
  | incrementMarker
  | conditionMarker
  | mainFunction
  deriving DecidableEq, Repr

def Field.name : Field → String
  | .threshold => "do_all_threshold"
  | .incrementMarker => "increment_block_marker"
  | .conditionMarker => "condition_block_marker"
  | .mainFunction => "main_function_name"

def Field.all : List Field :=
  [threshold, incrementMarker, conditionMarker, mainFunction]

def Field.ofName? (name : String) : Option Field :=
  all.find? (·.name = name)

inductive Error
  | range (value : Float)
  | empty (field : Field)
  | missingVersion
  | versionNoInteger
  | unsupportedVersion (found : Count)
  | unreadable
  /-- The text is not a well-formed document of the expected shape. -/
  | malformed

/-- Numbers in messages never have an exponent, and whole ones no point. -/
def Error.valueLayout : Decimal.Layout where
  tie := .up
  positional _ := true
  wholeEnd := ""
  infinity := "inf"
  nan := "NaN"

/-- The error in words, where the wording is fixed. -/
def Error.message? : Error → Option String
  | .range value =>
    some (s!"Invalid range for field '{Field.threshold.name}': " ++ Error.valueLayout.text value
      ++ " not in 0..=1. Suitability scores are fractions; 0.9 is the usual cut-off.")
  | .empty field =>
    some s!"Field '{field.name}' must not be empty. Remove the field to use the default."
  | .missingVersion =>
    some ("Missing 'version' field in configuration file. "
      ++ "Add 'version: 1' to the top of your YAML file.")
  | .versionNoInteger => some "'version' must be an integer"
  | .unsupportedVersion found =>
    some (s!"Unsupported configuration version {Text.Numeral.decimal found.toNat}. "
      ++ "Supported versions: 1")
  | .unreadable | .malformed => none

def texts (c : Config) : List (Field × String) :=
  [(.incrementMarker, c.incrementMarker), (.conditionMarker, c.conditionMarker),
   (.mainFunction, c.mainFunction)]

/-- The threshold has to be a fraction, and no text setting may be blank. -/
def validate (c : Config) : Except Error Unit :=
  if 0 ≤ c.threshold ∧ c.threshold ≤ 1 then
    match c.texts.find? fun (_, text) => Text.IsBlankText text with
    | some (field, _) => .error (.empty field)
    | none => .ok ()
  else
    .error (.range c.threshold)

end Config

/-! ## Things to be checked -/

class Validatable (α : Type) where
  validate : α → Except Config.Error Unit
  name : String := "Config"

instance : Validatable Config where
  validate := Config.validate
  name := "DetectionConfig"

instance {α : Type} [Validatable α] : Validatable (Option α) where
  validate
    | some a => Validatable.validate a
    | none => .ok ()

end UnitGraph
