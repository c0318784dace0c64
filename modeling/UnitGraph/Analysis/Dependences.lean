import UnitGraph.Graph.SubtreeIndex

/-! # Classifying dependences

Whether one subtree depends on another, and which of the dependences are benign. A dependence is
benign for an enclosing loop when it is the index update of a loop in there and its variable is
never written in the body. Every question is a scan over subtrees of an index. -/

namespace UnitGraph

structure Classifier where
  graph : Graph
  index : SubtreeIndex

/-- The units under an enclosing loop and the header lines of the loops there, the loop itself
included. -/
structure LoopScope where
  root : Nat
  headerLines : List SourceLine
  units : List Nat

namespace Classifier

def scope (c : Classifier) (enclosing : Nat) : LoopScope where
  root := enclosing
  headerLines := (c.index.subtreeOfKind c.graph enclosing .loop).filterMap fun l =>
    (c.graph.node? l).map Node.line
  units := c.index.subtreeOfKind c.graph enclosing .unit

/-- Some node under `source` has a read-after-write dependence into the subtree of `target`. A node
never depends on itself. -/
def hasDependency (c : Classifier) (source target : Nat) : Bool :=
  source != target && (c.index.subtree source).any fun n =>
    (c.graph.outgoingOfKind n .raw).any fun d => c.index.contains target d.target

def isLoopIndexIn (c : Classifier) (s : LoopScope) (d : DependenceEdge) : Bool :=
  d.dependence.isSelfReferential
    && s.headerLines.contains d.dependence.sourceLine
    && c.index.contains s.root d.target
    && c.graph.isKind d.target .unit

/-- The unit writes the variable outside the header lines: at the sink of an outgoing
write dependence, or at the source of an incoming read-after-write one. -/
def writesInBody (c : Classifier) (s : LoopScope) (var : String) (n : Nat) : Bool :=
  ((c.graph.outgoing n).any fun d =>
    d.dependence.kind.writesAtSink && d.dependence.var = var
      && !s.headerLines.contains d.dependence.sinkLine)
  || ((c.graph.incoming n).any fun d =>
    d.dependence.kind = .raw && d.dependence.var = var
      && !s.headerLines.contains d.dependence.sourceLine)

def isReadOnlyIn (c : Classifier) (s : LoopScope) (var : String) : Bool :=
  s.units.all fun n => !c.writesInBody s var n

def isLoopIndex (c : Classifier) (edge enclosing : Nat) : Bool :=
  (c.graph.dependence? edge).any fun d => c.isLoopIndexIn (c.scope enclosing) d

def isReadOnlyInLoopBody (c : Classifier) (edge enclosing : Nat) : Bool :=
  (c.graph.dependence? edge).any fun d => c.isReadOnlyIn (c.scope enclosing) d.dependence.var

/-! ## Bulk classification

Whether a variable is read-only is asked for loop indexes only, and once for each variable. -/

abbrev ReadOnlyMemo := Std.ExtHashMap String Bool

def readOnlyMemo (c : Classifier) (s : LoopScope) (memo : ReadOnlyMemo) (var : String) :
    Bool × ReadOnlyMemo :=
  match memo[var]? with
  | some known => (known, memo)
  | none =>
    let readOnly := c.isReadOnlyIn s var
    (readOnly, memo.insert var readOnly)

def nonBenignTargets (c : Classifier) (s : LoopScope) :
    ReadOnlyMemo → List DependenceEdge → List Nat
  | _, [] => []
  | memo, d :: ds =>
    if c.isLoopIndexIn s d then
      -- The memo goes on to the dependences that follow, so a variable is looked into once.
      let (readOnly, memo) := c.readOnlyMemo s memo d.dependence.var
      let rest := c.nonBenignTargets s memo ds
      if readOnly then rest else d.target :: rest
    else
      d.target :: c.nonBenignTargets s memo ds

/-- The targets of the read-after-write dependences that leave units under `n` and are not benign
for `enclosing`, in increasing order. -/
def nonBenignDependencies (c : Classifier) (n enclosing : Nat) : List Nat :=
  let leaving := (c.index.subtreeOfKind c.graph n .unit).flatMap fun unit =>
    c.graph.outgoingOfKind unit .raw
  sortDistinct (· ≤ ·) (c.nonBenignTargets (c.scope enclosing) ∅ leaving)

def hasDependencyIgnoringBenign (c : Classifier) (source target enclosing : Nat) : Bool :=
  source != target && (c.nonBenignDependencies source enclosing).any (c.index.contains target)

end Classifier

end UnitGraph
