import UnitGraph.Analysis.BlockRole
import UnitGraph.Dependence
import UnitGraph.Detection.Verdict
import UnitGraph.Json.Document
import UnitGraph.Json.Reader
import UnitGraph.Node

/-! # JSON forms of the model

How nodes, edges and their parts are written, and beside each form its reader. -/

namespace UnitGraph

open Json

/-! ## Basic types -/

def Count.document (n : Count) : Document :=
  .number n.toNat

def SourceLine.document (x : SourceLine) : Document :=
  .text x.text

namespace NodeKind

def name : NodeKind → String
  | .function => "function"
  | .loop => "loop"
  | .unit => "computationalunit"
  | .dummy => "dummy"

def ofName? (name : String) : Option NodeKind :=
  [function, loop, unit, dummy].find? (·.name = name)

def document (k : NodeKind) : Document :=
  .text k.name

def reader : Reader NodeKind :=
  Draft.asName ofName?

end NodeKind

namespace DependenceKind

def document (k : DependenceKind) : Document :=
  .text k.tag

def reader : Reader DependenceKind :=
  Draft.asName ofTag?

end DependenceKind

namespace BlockRole

def ofName? (name : String) : Option BlockRole :=
  [increment, condition, body].find? (·.name = name)

def document (r : BlockRole) : Document :=
  .text r.name

def reader : Reader BlockRole :=
  Draft.asName ofName?

end BlockRole

/-! ## Verdicts -/

namespace Verdict

def document (v : Verdict) : Document :=
  .object [("is_do_all", .bool v.doAll), ("is_reduction", .bool v.reduction)]

structure Flags where
  doAll : Option Bool := none
  reduction : Option Bool := none

def record : Record Flags where
  fields := [["is_do_all"], ["is_reduction"]]
  put so name d := match name with
    | "is_do_all" => do return { so with doAll := some (← d.asBool) }
    | _ => do return { so with reduction := some (← d.asBool) }

def reader : Reader Verdict := fun d => do
  let so ← record.read {} d
  return ⟨← Record.needed so.doAll, ← Record.needed so.reduction⟩

end Verdict

/-! ## Payloads and nodes -/

namespace Payload

def document : Payload → Document
  | .unit instructions block =>
    .object [("ComputationalUnit", .object
      [("instructions_count", instructions.document), ("basic_block_id", .text block)])]
  | .loop doAll reduction => .object [("Loop", Verdict.document ⟨doAll, reduction⟩)]
  | .function name => .object [("Function", .object [("name", .text name)])]
  | .dummy => .text "Dummy"

structure UnitFields where
  instructions : Option Count := none
  block : Option String := none

def unitRecord : Record UnitFields where
  fields := [["instructions_count"], ["basic_block_id"]]
  put so name d := match name with
    | "instructions_count" => do return { so with instructions := some (← d.asCount) }
    | _ => do return { so with block := some (← d.asText) }

def unitReader : Reader Payload := fun d => do
  let so ← unitRecord.read {} d
  return .unit (← Record.needed so.instructions) (← Record.needed so.block)

def loopReader : Reader Payload := fun d =>
  (Verdict.reader d).map fun v => .loop v.doAll v.reduction

def functionRecord : Record (Option String) where
  fields := [["name"]]
  put _ _ d := d.asText.map some

def functionReader : Reader Payload := fun d => do
  return .function (← Record.needed (← functionRecord.read none d))

def variant? : String → Option (Draft.Variant Payload)
  | "ComputationalUnit" => some (.holding unitReader)
  | "Loop" => some (.holding loopReader)
  | "Function" => some (.holding functionReader)
  | "Dummy" => some (.plain .dummy)
  | _ => none

def reader : Reader Payload :=
  Draft.asVariant variant?

end Payload

namespace Node

def document (n : Node) : Document :=
  .object [("id", .text n.id), ("start_line", n.line.document), ("payload", n.payload.document),
    ("geometric_decomposition", .ofOption .bool n.decomposes)]

structure Fields where
  id : Option String := none
  line : Option SourceLine := none
  payload : Option Payload := none
  decomposes : Option Bool := none

def record : Record Fields where
  fields := [["id"], ["start_line"], ["payload"], ["geometric_decomposition"]]
  put so name d := match name with
    | "id" => do return { so with id := some (← d.asText) }
    | "start_line" => do return { so with line := some (← d.asLine) }
    | "payload" => do return { so with payload := some (← Payload.reader d) }
    | _ => do return { so with decomposes := ← d.asOption Draft.asBool }

def reader : Reader Node := fun d => do
  let so ← record.read {} d
  return {
    id := ← Record.needed so.id
    line := ← Record.needed so.line
    payload := ← Record.needed so.payload
    decomposes := so.decomposes }

end Node

/-! ## Dependences and edges -/

namespace Dependence

def document (d : Dependence) : Document :=
  .object [("kind", d.kind.document), ("var", .text d.var),
    ("source_line", d.sourceLine.document), ("sink_line", d.sinkLine.document)]

structure Fields where
  kind : Option DependenceKind := none
  var : Option String := none
  sourceLine : Option SourceLine := none
  sinkLine : Option SourceLine := none

def record : Record Fields where
  fields := [["kind"], ["var"], ["source_line"], ["sink_line"]]
  put so name d := match name with
    | "kind" => do return { so with kind := some (← DependenceKind.reader d) }
    | "var" => do return { so with var := some (← d.asText) }
    | "source_line" => do return { so with sourceLine := some (← d.asLine) }
    | _ => do return { so with sinkLine := some (← d.asLine) }

def reader : Reader Dependence := fun d => do
  let so ← record.read {} d
  return ⟨← Record.needed so.kind, ← Record.needed so.var, ← Record.needed so.sourceLine,
    ← Record.needed so.sinkLine⟩

end Dependence

namespace EdgeLabel

def document : EdgeLabel → Document
  | .child => .text "Child"
  | .dependence d => .object [("Dependence", d.document)]

def variant? : String → Option (Draft.Variant EdgeLabel)
  | "Child" => some (.plain .child)
  | "Dependence" => some (.holding fun d => (Dependence.reader d).map .dependence)
  | _ => none

def reader : Reader EdgeLabel :=
  Draft.asVariant variant?

end EdgeLabel

end UnitGraph
