import UnitGraph.Codec.Model
import UnitGraph.Config

/-! # JSON form of settings

Settings are read from JSON for exchange; every field may be missing, none may be unknown. -/

namespace UnitGraph

open Json

namespace Config

def record : Record Config where
  fields := [[Field.threshold.name], [Field.incrementMarker.name], [Field.conditionMarker.name],
    [Field.mainFunction.name]]
  closed := true
  put so name d := match name with
    | "do_all_threshold" => do return { so with threshold := ← d.asFloat }
    | "increment_block_marker" => do return { so with incrementMarker := ← d.asText }
    | "condition_block_marker" => do return { so with conditionMarker := ← d.asText }
    | _ => do return { so with mainFunction := ← d.asText }

def reader : Reader Config :=
  record.read {}

structure Versioned where
  version : Count
  detection : Config

namespace Versioned

structure Fields where
  version : Option Count := none
  detection : Config := {}

def record : Record Fields where
  fields := [["version"], ["detection"]]
  closed := true
  put so name d := match name with
    | "version" => do return { so with version := some (← d.asCount) }
    | _ => do return { so with detection := ← Config.reader d }

def reader : Reader Versioned := fun d => do
  let so ← record.read {} d
  return ⟨← Record.needed so.version, so.detection⟩

end Versioned

end Config

end UnitGraph
