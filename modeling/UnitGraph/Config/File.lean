import UnitGraph.Config
import UnitGraph.Yaml.Scalar.Printer
import UnitGraph.Yaml.Value

/-! # Configuration files

A configuration file is a mapping with a version and, under `detection`, the settings that differ
from the defaults. The version is looked at first, so that a file of another version is refused for
its version and not for what this one does not know. -/

namespace UnitGraph.Config

open Yaml (Value)

/-! ## Reading -/

inductive Section
  | version
  | detection
  deriving DecidableEq, Repr

def Section.name : Section → String
  | version => "version"
  | detection => "detection"

def Section.ofName? (name : String) : Option Section :=
  [version, detection].find? (·.name = name)

def currentVersion : Count := 1

def versionOf (file : Value) : Except Error Count :=
  match file.get? Section.version.name with
  | none => .error .missingVersion
  | some v =>
    match v.asCount? with
    | some n => .ok n
    | none => .error .versionNoInteger

def set? (c : Config) : Field × Value → Option Config
  | (.threshold, v) => do return { c with threshold := ← v.asFloat? }
  | (.incrementMarker, v) => do return { c with incrementMarker := ← v.asText? }
  | (.conditionMarker, v) => do return { c with conditionMarker := ← v.asText? }
  | (.mainFunction, v) => do return { c with mainFunction := ← v.asText? }

/-- The settings of the part about detection; what is not given has its default. -/
def ofValue? (v : Value) : Option Config := do
  (← v.fields? Field.ofName?).foldlM set? {}

def ofFile? (file : Value) : Option Config := do
  let parts ← file.fields? Section.ofName?
  match parts.lookup Section.detection with
  | some v => ofValue? v
  | none => some {}

def load (text : String) : Except Error Config := do
  let some file := Value.read? text | .error .malformed
  let version ← versionOf file
  if version ≠ currentVersion then .error (.unsupportedVersion version)
  let some c := ofFile? file | .error .malformed
  c.validate
  return c

def loadFile (contents : Option ByteArray) : Except Error Config :=
  match contents.bind String.fromUTF8? with
  | some text => load text
  | none => .error .unreadable

/-! ## Writing -/

def written (c : Config) : Field → List Char
  | .threshold => (Yaml.floatLayout.text c.threshold).toList ++ ['\n']
  | .incrementMarker => Yaml.Printer.text 4 c.incrementMarker.toList
  | .conditionMarker => Yaml.Printer.text 4 c.conditionMarker.toList
  | .mainFunction => Yaml.Printer.text 4 c.mainFunction.toList

def toYaml (c : Config) : String :=
  String.ofList <|
    "version: 1\ndetection:\n".toList ++
      Field.all.flatMap fun f => "  ".toList ++ f.name.toList ++ ": ".toList ++ c.written f

end UnitGraph.Config
