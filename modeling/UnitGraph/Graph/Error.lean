import UnitGraph.Node
import UnitGraph.Dependence

/-! # Why a graph cannot be built or queried -/

namespace UnitGraph

inductive DependenceField
  | kind
  | var
  | sourceLine
  | sinkLine
  deriving DecidableEq, Repr

def DependenceField.name : DependenceField → String
  | .kind => "dtype"
  | .var => "var"
  | .sourceLine => "sourceLine"
  | .sinkLine => "sinkLine"

inductive EdgeFault
  /-- Dependences connect units only. -/
  | endpoint (id : String) (kind : NodeKind)
  | missing (field : DependenceField)
  | unknownDependence (tag : String)
  | unknownEdge (tag : String)
  deriving DecidableEq, Repr

def EdgeFault.message : EdgeFault → String
  | .endpoint id kind => s!"dependence endpoint '{id}' is a {kind.tag} node, expected cu"
  | .missing field => s!"dependence edge without '{field.name}'"
  | .unknownDependence tag => s!"unknown dependence type '{tag}'"
  | .unknownEdge tag => s!"unknown edge type '{tag}'"

inductive GraphError
  | nodeNotFound (index : Nat)
  | unknownNode (id : String)
  | duplicateNode (id : String)
  | invalidNodeType (node tag : String)
  | invalidEdge (source target : String) (fault : EdgeFault)
  | multipleParents (child parent existing : String)
  | containmentCycle (parent child : String)
  deriving DecidableEq, Repr

def GraphError.message : GraphError → String
  | .nodeNotFound index => s!"Node not found: index {Text.Numeral.decimal index}"
  | .unknownNode id => s!"Unknown node id '{id}'"
  | .duplicateNode id => s!"Duplicate node id '{id}'"
  | .invalidNodeType node tag =>
    s!"Invalid node type '{tag}' for node '{node}'. Valid types: func, loop, cu, dummy"
  | .invalidEdge source target fault => s!"Invalid edge {source} -> {target}: {fault.message}"
  | .multipleParents child parent existing =>
    s!"Node '{child}' already has parent '{existing}', cannot attach to '{parent}'"
  | .containmentCycle parent child =>
    s!"Containment edge {parent} -> {child} would create a cycle"

/-- Reads the tag of a node; the node's identifier only serves the message. -/
def NodeKind.parse (tag node : String) : Except GraphError NodeKind :=
  match NodeKind.ofTag? tag with
  | some kind => .ok kind
  | none => .error (.invalidNodeType node tag)

end UnitGraph
