import UnitGraph.Analysis.BlockRole
import UnitGraph.Analysis.Iterations
import UnitGraph.Config
import UnitGraph.Graph.SubtreeIndex

/-! # Workload

The static size of a node is the number of instructions under it. Its workload weighs them by how
often they run: a unit counts its instructions, a function sums its direct children, and a loop
takes every unit in its subtree as often as the role of the unit says for the effective iterations
of the loop. Sums and products stop at the largest count. -/

namespace UnitGraph

structure Markers where
  increment : String
  condition : String
  deriving DecidableEq, Repr

def Config.markers (c : Config) : Markers :=
  ⟨c.incrementMarker, c.conditionMarker⟩

def Markers.weighted (m : Markers) (iterations : Count) (unit : Node) : Count :=
  let role := BlockRole.classify (unit.block?.getD "") m.increment m.condition
  Count.mul unit.instructions (role.multiplier iterations)

namespace Workload

def units (g : Graph) (ix : SubtreeIndex) (root : Nat) : List Node :=
  (ix.subtreeOfKind g root .unit).filterMap g.node?

def totalInstructions (g : Graph) (ix : SubtreeIndex) (root : Nat) : Count :=
  Count.sum ((units g ix root).map Node.instructions)

def ofLoop (m : Markers) (g : Graph) (ix : SubtreeIndex) (iterations : Count) (loop : Nat) :
    Count :=
  Count.sum ((units g ix loop).map (m.weighted iterations))

/-- A count found with the help of an estimator, which may remember more afterwards. -/
abbrev Estimate := Estimator → Except GraphError Count × Estimator

def addAll (estimate : Nat → Estimate) : Count → List Nat → Estimate
  | total, [], e => (.ok total, e)
  | total, n :: ns, e =>
    match estimate n e with
    | (.ok count, e) => addAll estimate (Count.add total count) ns e
    | (.error err, e) => (.error err, e)

/-- The workload of a node with functions nested at most `depth` deep below it. -/
def within (m : Markers) (g : Graph) (ix : SubtreeIndex) : (depth : Nat) → Nat → Estimate
  | depth, n, e =>
    match g.require n with
    | .error err => (.error err, e)
    | .ok node =>
      match node.payload, depth with
      | .unit instructions _, _ => (.ok instructions, e)
      | .loop .., _ =>
        -- Only the outermost loop multiplies; loops inside it just add their units.
        let (iterations, e) := e.effective g n
        (.ok (ofLoop m g ix iterations n), e)
      | .function _, depth + 1 => addAll (within m g ix depth) 0 (g.children n) e
      -- Not reached from the depth given below, as functions nest without cycles.
      | .function _, 0 => (.ok 0, e)
      | .dummy, _ => (.ok 0, e)

/-- The workload of a node; only a missing node has none. No chain of nested functions is longer
than the number of nodes. -/
def estimate (m : Markers) (g : Graph) (ix : SubtreeIndex) (n : Nat) : Estimate :=
  within m g ix g.nodes.size n

end Workload

end UnitGraph
