import UnitGraph.Graph.Basic

/-! # Subtree index

One depth-first walk over the containment forest puts the nodes in pre-order. The subtree of a
node is then a contiguous part of that order, and lying under a node is an interval test. Only
containment edges are followed. -/

namespace UnitGraph

/-- The part of an order from `start` up to but excluding `stop`. -/
structure Span where
  start : Nat
  stop : Nat
  deriving DecidableEq, Repr

structure SubtreeIndex where
  order : Array Nat
  spans : Std.ExtHashMap Nat Span

namespace SubtreeIndex

inductive Visit
  | enter (node : Nat)
  | leave (node : Nat)
  deriving DecidableEq, Repr

def empty : SubtreeIndex := ⟨#[], ∅⟩

instance : Inhabited SubtreeIndex := ⟨empty⟩

/-- Does one visit, and says which visits come next because of it. A node met before is not
entered again. -/
def visit (g : Graph) (ix : SubtreeIndex) : Visit → SubtreeIndex × List Visit
  | .enter node =>
    if node ∈ ix.spans then
      (ix, [])
    else
      -- The stop is provisional: it holds for a leaf and is set anew when the node is left.
      let start := ix.order.size
      (⟨ix.order.push node, ix.spans.insert node ⟨start, start + 1⟩⟩,
        (g.children node).map .enter ++ [.leave node])
  | .leave node =>
    match ix.spans[node]? with
    | some span => ({ ix with spans := ix.spans.insert node ⟨span.start, ix.order.size⟩ }, [])
    | none => (ix, [])

/-- Does the pending visits, the head first, at most `limit` of them. -/
def walk (g : Graph) : (limit : Nat) → List Visit → SubtreeIndex → SubtreeIndex
  | 0, _, ix => ix
  | _ + 1, [], ix => ix
  | limit + 1, v :: pending, ix =>
    let (ix, next) := ix.visit g v
    walk g limit (next ++ pending) ix

/-- Visits enough for any walk: a node is entered once and left once, and every edge is followed
once. -/
def walkLimit (g : Graph) : Nat :=
  g.nodes.size + 2 * g.edges.size + 1

def traverse (g : Graph) (ix : SubtreeIndex) (root : Nat) : SubtreeIndex :=
  walk g (walkLimit g) [.enter root] ix

def build (g : Graph) : SubtreeIndex :=
  g.roots.foldl (traverse g) empty

/-- A node followed by its descendants in pre-order; nothing for a node that is not indexed. -/
def subtree (ix : SubtreeIndex) (root : Nat) : List Nat :=
  match ix.spans[root]? with
  | some span => (ix.order.extract span.start span.stop).toList
  | none => []

def subtreeOfKind (ix : SubtreeIndex) (g : Graph) (root : Nat) (kind : NodeKind) : List Nat :=
  (ix.subtree root).filter (g.isKind · kind)

def contains (ix : SubtreeIndex) (root node : Nat) : Bool :=
  match ix.spans[root]?, ix.spans[node]? with
  | some span, some place => span.start ≤ place.start && place.start < span.stop
  | _, _ => false

def size (ix : SubtreeIndex) : Nat :=
  ix.order.size

end SubtreeIndex

end UnitGraph
