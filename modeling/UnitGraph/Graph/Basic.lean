import UnitGraph.Graph.Error

/-! # Unit graphs

A unit graph has two families of edges over one set of nodes: containment edges, which form a
forest of functions, loops and units, and dependence edges between units. Nodes and edges are
numbered from 0 in the order of their addition; both families share one numbering.

Going up from a node follows the parents. The climb is cut after a given number of nodes; in a
forest that is at least as large as the number of nodes, so nothing is cut there. -/

namespace UnitGraph

structure Edge where
  source : Nat
  target : Nat
  label : EdgeLabel
  deriving DecidableEq, Repr

structure Graph where
  nodes : Array Node
  edges : Array Edge
  ids : Std.ExtHashMap String Nat

structure DependenceEdge where
  edge : Nat
  source : Nat
  target : Nat
  dependence : Dependence
  deriving DecidableEq, Repr

/-- The points met by stepping from `n` on, `n` first, at most `limit` of them. -/
def climb (step : Nat → Option Nat) : (limit n : Nat) → List Nat
  | 0, _ => []
  | limit + 1, n =>
    n :: match step n with
      | none => []
      | some m => climb step limit m

namespace Graph

def empty : Graph := ⟨#[], #[], ∅⟩

instance : Inhabited Graph := ⟨empty⟩

/-! ## Nodes -/

def node? (g : Graph) (n : Nat) : Option Node :=
  g.nodes[n]?

def require (g : Graph) (n : Nat) : Except GraphError Node :=
  match g.node? n with
  | some node => .ok node
  | none => .error (.nodeNotFound n)

def kind? (g : Graph) (n : Nat) : Option NodeKind :=
  (g.node? n).map Node.kind

def isKind (g : Graph) (n : Nat) (kind : NodeKind) : Bool :=
  g.kind? n = some kind

def byId? (g : Graph) (id : String) : Option Nat :=
  g.ids[id]?

def indices (g : Graph) : List Nat :=
  List.range g.nodes.size

def ofKind (g : Graph) (kind : NodeKind) : List Nat :=
  g.indices.filter (g.isKind · kind)

def functions (g : Graph) : List Nat :=
  g.ofKind .function

def findFunction? (g : Graph) (name : String) : Option Nat :=
  g.functions.find? fun n => (g.node? n).any (·.displayName = name)

/-! ## Containment -/

/-- The direct children of a node in the order of attachment. -/
def children (g : Graph) (n : Nat) : List Nat :=
  (g.edges.toList.filter fun e => e.source = n && e.label.isChild).map Edge.target

def childrenOfKind (g : Graph) (n : Nat) (kind : NodeKind) : List Nat :=
  (g.children n).filter (g.isKind · kind)

def parent? (g : Graph) (n : Nat) : Option Nat :=
  -- Child edges are searched the latest first; a node of a built graph ends at most one.
  (g.edges.toList.reverse.find? fun e => e.target = n && e.label.isChild).map Edge.source

def roots (g : Graph) : List Nat :=
  g.indices.filter fun n => (g.parent? n).isNone

/-- The containment ancestors of a node, the nearest first. -/
def ancestors (g : Graph) (n : Nat) : List Nat :=
  match g.parent? n with
  | none => []
  -- As many steps as there are nodes cut no climb of a forest short.
  | some p => climb g.parent? g.nodes.size p

def enclosingLoop? (g : Graph) (n : Nat) : Option Nat :=
  (g.ancestors n).find? (g.isKind · .loop)

/-! ## Dependences -/

def dependenceEdges (g : Graph) : List DependenceEdge :=
  g.edges.toList.zipIdx.filterMap fun (e, i) =>
    e.label.dependence?.map (⟨i, e.source, e.target, ·⟩)

/-- The dependence edge with a number; a containment edge is none. -/
def dependence? (g : Graph) (edge : Nat) : Option DependenceEdge := do
  let e ← g.edges[edge]?
  let d ← e.label.dependence?
  return ⟨edge, e.source, e.target, d⟩

/-- The dependences that leave a node, the latest first. -/
def outgoing (g : Graph) (n : Nat) : List DependenceEdge :=
  (g.dependenceEdges.filter (·.source = n)).reverse

def incoming (g : Graph) (n : Nat) : List DependenceEdge :=
  (g.dependenceEdges.filter (·.target = n)).reverse

def outgoingOfKind (g : Graph) (n : Nat) (kind : DependenceKind) : List DependenceEdge :=
  (g.outgoing n).filter (·.dependence.kind = kind)

/-! ## Annotations -/

def decomposes? (g : Graph) (n : Nat) : Option Bool :=
  (g.node? n).bind Node.decomposes

def annotate (g : Graph) (n : Nat) (verdict : Bool) : Except GraphError Graph :=
  if n < g.nodes.size then
    .ok { g with nodes := g.nodes.modify n ({ · with decomposes := some verdict }) }
  else
    .error (.nodeNotFound n)

end Graph

end UnitGraph
