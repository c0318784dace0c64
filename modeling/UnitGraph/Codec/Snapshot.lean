import UnitGraph.Graph.Snapshot
import UnitGraph.Codec.Model

/-! # JSON form of snapshots -/

namespace UnitGraph

open Json

namespace NodeRecord

def document (r : NodeRecord) : Document :=
  .object [("id", .text r.id), ("type", .text r.type), ("startLine", r.line.document),
    ("instructionsCount", r.instructions.document), ("basicBlockId", .text r.block),
    ("name", .ofOption .text r.name), ("doAll", .bool r.doAll), ("reduction", .bool r.reduction)]

/-- The fields that have no default, as far as they are read, and the record with the others. -/
structure Fields where
  id : Option String := none
  type : Option String := none
  line : Option SourceLine := none
  rest : NodeRecord := { id := "", type := "", line := default }

def record : Record Fields where
  fields := [["id"], ["type"], ["startLine", "startsAtLine"], ["instructionsCount"],
    ["basicBlockId", "BasicBlockID"], ["name"], ["doAll"], ["reduction"]]
  put so name d := match name with
    | "id" => do return { so with id := some (← d.asText) }
    | "type" => do return { so with type := some (← d.asText) }
    | "startLine" => do return { so with line := some (← d.asLine) }
    | "instructionsCount" => do return { so with rest.instructions := ← d.asCount }
    | "basicBlockId" => do return { so with rest.block := ← d.asText }
    | "name" => do return { so with rest.name := ← d.asOption Draft.asText }
    | "doAll" => do return { so with rest.doAll := ← d.asBool }
    | _ => do return { so with rest.reduction := ← d.asBool }

def reader : Reader NodeRecord := fun d => do
  let so ← record.read {} d
  return { so.rest with
    id := ← Record.needed so.id
    type := ← Record.needed so.type
    line := ← Record.needed so.line }

end NodeRecord

namespace EdgeRecord

def document (r : EdgeRecord) : Document :=
  .object [("source", .text r.source), ("target", .text r.target), ("type", .text r.type),
    ("dtype", .ofOption .text r.dtype), ("var", .ofOption .text r.var),
    ("sourceLine", .ofOption SourceLine.document r.sourceLine),
    ("sinkLine", .ofOption SourceLine.document r.sinkLine)]

structure Fields where
  source : Option String := none
  target : Option String := none
  type : Option String := none
  rest : EdgeRecord := { source := "", target := "", type := "" }

def record : Record Fields where
  fields := [["source"], ["target"], ["type"], ["dtype"], ["var"], ["sourceLine"], ["sinkLine"]]
  put so name d := match name with
    | "source" => do return { so with source := some (← d.asText) }
    | "target" => do return { so with target := some (← d.asText) }
    | "type" => do return { so with type := some (← d.asText) }
    | "dtype" => do return { so with rest.dtype := ← d.asOption Draft.asText }
    | "var" => do return { so with rest.var := ← d.asOption Draft.asText }
    | "sourceLine" => do return { so with rest.sourceLine := ← d.asOption Draft.asLine }
    | _ => do return { so with rest.sinkLine := ← d.asOption Draft.asLine }

def reader : Reader EdgeRecord := fun d => do
  let so ← record.read {} d
  return { so.rest with
    source := ← Record.needed so.source
    target := ← Record.needed so.target
    type := ← Record.needed so.type }

end EdgeRecord

namespace Snapshot

def document (s : Snapshot) : Document :=
  .object [("nodes", .array (s.nodes.map NodeRecord.document)),
    ("edges", .array (s.edges.map EdgeRecord.document))]

structure Fields where
  nodes : Option (List NodeRecord) := none
  edges : List EdgeRecord := []

def record : Record Fields where
  fields := [["nodes"], ["edges"]]
  put so name d := match name with
    | "nodes" => do return { so with nodes := some (← d.asList NodeRecord.reader) }
    | _ => do return { so with edges := ← d.asList EdgeRecord.reader }

def reader : Reader Snapshot := fun d => do
  let so ← record.read {} d
  return ⟨← Record.needed so.nodes, so.edges⟩

inductive LoadError
  | text (fault : Fault)
  | graph (error : GraphError)
  deriving DecidableEq, Repr

def load (text : String) : Except LoadError Graph :=
  match decode reader text with
  | .error fault => .error (.text fault)
  | .ok s => s.toGraph.mapError .graph

end Snapshot

end UnitGraph
