import UnitGraph.Graph.Basic
import UnitGraph.Config

/-! # Loop verdicts

Detection does not classify loops itself. It asks a source of verdicts, which reads what is stored
on the loop or compares a suitability score with a threshold. -/

namespace UnitGraph

structure Verdict where
  doAll : Bool := false
  reduction : Bool := false
  deriving DecidableEq, Repr

namespace Verdict

def ofSuitability (score threshold : Float) (reduction : Bool) : Verdict :=
  ⟨threshold ≤ score, reduction⟩

def isParallelizable (v : Verdict) : Bool :=
  v.doAll || v.reduction

end Verdict

abbrev VerdictSource := Graph → Nat → Verdict

/-- The verdict stored on a loop; any other node has neither property. -/
def storedVerdict : VerdictSource := fun g n =>
  match (g.node? n).map Node.payload with
  | some (.loop doAll reduction) => ⟨doAll, reduction⟩
  | _ => {}

def uniformVerdict (doAll : Bool) : VerdictSource := fun g n =>
  ⟨doAll && g.isKind n .loop, false⟩

structure SuitabilityScores where
  threshold : Float
  scores : Std.ExtHashMap String Float

namespace SuitabilityScores

def new (threshold : Float) : SuitabilityScores :=
  ⟨threshold, ∅⟩

def withScore (s : SuitabilityScores) (id : String) (score : Float) : SuitabilityScores :=
  { s with scores := s.scores.insert id score }

def ofList (threshold : Float) (pairs : List (String × Float)) : SuitabilityScores :=
  pairs.foldl (fun s (id, score) => s.withScore id score) (new threshold)

/-- A scored node is do-all when its score reaches the threshold; without a score the stored verdict
counts. The reduction verdict is the stored one. -/
def verdict (s : SuitabilityScores) : VerdictSource := fun g n =>
  let stored := storedVerdict g n
  match (g.node? n).bind fun node => s.scores[node.id]? with
  | some score => .ofSuitability score s.threshold stored.reduction
  | none => stored

end SuitabilityScores

end UnitGraph
