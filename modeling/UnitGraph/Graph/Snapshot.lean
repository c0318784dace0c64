import UnitGraph.Graph.Builder

/-! # Snapshots

A snapshot lists the nodes and edges of a graph with textual tags and untyped fields. Turning it
into a graph checks the tags and every structural rule, all nodes before any edge. -/

namespace UnitGraph

/-- A node as listed: the tag says which of the other fields count. -/
structure NodeRecord where
  id : String
  type : String
  line : SourceLine
  instructions : Count := 0
  block : String := ""
  name : Option String := none
  doAll : Bool := false
  reduction : Bool := false
  deriving DecidableEq, Repr

/-- An edge as listed: a dependence needs the last four fields, a containment edge none. -/
structure EdgeRecord where
  source : String
  target : String
  type : String
  dtype : Option String := none
  var : Option String := none
  sourceLine : Option SourceLine := none
  sinkLine : Option SourceLine := none
  deriving DecidableEq, Repr

structure Snapshot where
  nodes : List NodeRecord
  edges : List EdgeRecord := []
  deriving DecidableEq, Repr

namespace NodeRecord

/-- The payload that a kind selects from the fields; a function without name goes by its
identifier. -/
def payload (r : NodeRecord) : NodeKind → Payload
  | .unit => .unit r.instructions r.block
  | .loop => .loop r.doAll r.reduction
  | .function => .function (r.name.getD r.id)
  | .dummy => .dummy

def toNode (r : NodeRecord) : Except GraphError Node := do
  let kind ← NodeKind.parse r.type r.id
  return { id := r.id, line := r.line, payload := r.payload kind }

end NodeRecord

namespace EdgeRecord

def invalid (r : EdgeRecord) (fault : EdgeFault) : GraphError :=
  .invalidEdge r.source r.target fault

def needs {α : Type} (r : EdgeRecord) (field : DependenceField) (value : Option α) :
    Except GraphError α :=
  match value with
  | some a => .ok a
  | none => .error (r.invalid (.missing field))

def toDependence (r : EdgeRecord) : Except GraphError Dependence := do
  let tag ← r.needs .kind r.dtype
  let kind ← match DependenceKind.ofTag? tag with
    | some kind => .ok kind
    | none => .error (r.invalid (.unknownDependence tag))
  let var ← r.needs .var r.var
  let sourceLine ← r.needs .sourceLine r.sourceLine
  let sinkLine ← r.needs .sinkLine r.sinkLine
  return ⟨kind, var, sourceLine, sinkLine⟩

def addTo (r : EdgeRecord) (b : Builder) : Except GraphError Builder :=
  match r.type with
  | "child" => b.addChildById r.source r.target
  | "dependence" => do b.addDependenceById r.source r.target (← r.toDependence)
  | tag => .error (r.invalid (.unknownEdge tag))

end EdgeRecord

namespace Snapshot

def addRecord (b : Builder) (r : NodeRecord) : Except GraphError Builder := do
  let (_, b) ← b.addNode (← r.toNode)
  return b

/-- The graph of a snapshot, or the error of its first offending record. -/
def toGraph (s : Snapshot) : Except GraphError Graph := do
  let b ← s.nodes.foldlM addRecord Builder.empty
  let b ← s.edges.foldlM (fun b r => r.addTo b) b
  return b.graph

end Snapshot

end UnitGraph
