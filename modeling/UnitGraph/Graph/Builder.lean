import UnitGraph.Graph.Basic

/-! # Building graphs

A graph is built by single additions. Each one is checked, so that identifiers are unique, a node
has at most one parent, containment never closes a cycle, and dependences connect units. A refused
addition leaves everything as it was. -/

namespace UnitGraph

/-- A graph under construction, with the parent of every attached node at hand. -/
structure Builder where
  graph : Graph
  parents : Std.ExtHashMap Nat Nat

namespace Builder

def empty : Builder := ⟨.empty, ∅⟩

instance : Inhabited Builder := ⟨empty⟩

def addNode (b : Builder) (node : Node) : Except GraphError (Nat × Builder) :=
  if node.id ∈ b.graph.ids then
    .error (.duplicateNode node.id)
  else
    let n := b.graph.nodes.size
    .ok (n, { b with graph := { b.graph with
      nodes := b.graph.nodes.push node
      ids := b.graph.ids.insert node.id n } })

def idOf (b : Builder) (n : Nat) : Except GraphError String :=
  (b.graph.require n).map Node.id

def lineage (b : Builder) (n : Nat) : List Nat :=
  climb (b.parents[·]?) b.graph.nodes.size n

def pushEdge (b : Builder) (e : Edge) : Builder :=
  { b with graph := { b.graph with edges := b.graph.edges.push e } }

def addChild (b : Builder) (parent child : Nat) : Except GraphError Builder := do
  let parentId ← b.idOf parent
  let childId ← b.idOf child
  match b.parents[child]? with
  | some existing =>
    throw (.multipleParents childId parentId ((b.graph.node? existing).elim "" Node.id))
  | none =>
    -- The child would contain itself exactly if it is the parent or one of its ancestors.
    if child ∈ b.lineage parent then
      throw (.containmentCycle parentId childId)
    let b := b.pushEdge ⟨parent, child, .child⟩
    return { b with parents := b.parents.insert child parent }

/-- Passes if the endpoint is a unit; the message names both ends of the edge. -/
def requireUnit (sourceId targetId : String) (endpoint : Node) : Except GraphError Unit :=
  if endpoint.kind = .unit then
    .ok ()
  else
    .error (.invalidEdge sourceId targetId (.endpoint endpoint.id endpoint.kind))

def addDependence (b : Builder) (source target : Nat) (d : Dependence) :
    Except GraphError Builder := do
  let s ← b.graph.require source
  let t ← b.graph.require target
  requireUnit s.id t.id s
  requireUnit s.id t.id t
  return b.pushEdge ⟨source, target, .dependence d⟩

def resolve (b : Builder) (id : String) : Except GraphError Nat :=
  match b.graph.byId? id with
  | some n => .ok n
  | none => .error (.unknownNode id)

def addChildById (b : Builder) (parent child : String) : Except GraphError Builder := do
  b.addChild (← b.resolve parent) (← b.resolve child)

def addDependenceById (b : Builder) (source target : String) (d : Dependence) :
    Except GraphError Builder := do
  b.addDependence (← b.resolve source) (← b.resolve target) d

/-! ## Call sequences -/

inductive Call
  | node (node : Node)
  | child (parent child : Nat)
  | dependence (source target : Nat) (d : Dependence)
  | childById (parent child : String)
  | dependenceById (source target : String) (d : Dependence)
  | resolve (id : String)
  deriving DecidableEq, Repr

abbrev Answer := Except GraphError (Option Nat)

/-- Makes one call. A refused call gives the builder back unchanged. -/
def call (b : Builder) (c : Call) : Answer × Builder :=
  let outcome : Except GraphError (Option Nat × Builder) :=
    match c with
    | .node node => (b.addNode node).map fun (n, b) => (some n, b)
    | .child parent child => (b.addChild parent child).map (none, ·)
    | .dependence source target d => (b.addDependence source target d).map (none, ·)
    | .childById parent child => (b.addChildById parent child).map (none, ·)
    | .dependenceById source target d => (b.addDependenceById source target d).map (none, ·)
    | .resolve id => (b.resolve id).map (some ·, b)
  match outcome with
  | .ok (answer, b) => (.ok answer, b)
  | .error e => (.error e, b)

/-- Makes the calls in order; a refusal does not stop the later ones. -/
def run (b : Builder) : List Call → List Answer × Builder
  | [] => ([], b)
  | c :: cs =>
    let (answer, b) := b.call c
    let (answers, b) := b.run cs
    (answer :: answers, b)

end Builder

end UnitGraph
