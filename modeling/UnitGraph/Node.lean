import UnitGraph.Count
import UnitGraph.SourceLine

/-! # Nodes

Every node of a unit graph is a function, a loop, a computational unit or a dummy. The payload
carries what only makes sense for that kind, so the kind is read off the payload. -/

namespace UnitGraph

inductive NodeKind
  | function
  | loop
  | unit
  | dummy
  deriving DecidableEq, Repr

namespace NodeKind

def tag : NodeKind → String
  | .function => "func"
  | .loop => "loop"
  | .unit => "cu"
  | .dummy => "dummy"

/-- The kind with a tag; `function` is a second spelling of `func`. -/
def ofTag? : String → Option NodeKind
  | "func" | "function" => some .function
  | "loop" => some .loop
  | "cu" => some .unit
  | "dummy" => some .dummy
  | _ => none

end NodeKind

inductive Payload
  | unit (instructions : Count) (block : String)
  | loop (doAll reduction : Bool)
  | function (name : String)
  | dummy
  deriving DecidableEq, Repr

def Payload.kind : Payload → NodeKind
  | .unit .. => .unit
  | .loop .. => .loop
  | .function .. => .function
  | .dummy => .dummy

structure Node where
  id : String
  /-- Where the construct begins; for a loop its header line. -/
  line : SourceLine
  payload : Payload
  /-- The verdict of the latest detection run, on functions. -/
  decomposes : Option Bool := none
  deriving DecidableEq, Repr

namespace Node

def kind (n : Node) : NodeKind :=
  n.payload.kind

def instructions (n : Node) : Count :=
  match n.payload with
  | .unit count _ => count
  | _ => 0

def block? (n : Node) : Option String :=
  match n.payload with
  | .unit _ block => some block
  | _ => none

def displayName (n : Node) : String :=
  match n.payload with
  | .function name => name
  | _ => n.id

end Node

end UnitGraph
