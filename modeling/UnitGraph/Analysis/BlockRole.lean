import UnitGraph.Count

/-! # Block roles

The part that a unit plays in its loop is read off the name of its basic block. -/

namespace UnitGraph

inductive BlockRole
  /-- The increment step, counted once. -/
  | increment
  /-- The condition check, which runs one more time to leave the loop. -/
  | condition
  | body
  deriving DecidableEq, Repr

def occursIn (part : List Char) : List Char → Bool
  | [] => part.isEmpty
  | c :: whole => part.isPrefixOf (c :: whole) || occursIn part whole

namespace BlockRole

def name : BlockRole → String
  | .increment => "increment"
  | .condition => "condition"
  | .body => "body"

/-- The role of a block by the markers that its name contains; the increment marker goes first. -/
def classify (block incrementMarker conditionMarker : String) : BlockRole :=
  if occursIn incrementMarker.toList block.toList then .increment
  else if occursIn conditionMarker.toList block.toList then .condition
  else .body

def multiplier (iterations : Count) : BlockRole → Count
  | .increment => 1
  | .condition => Count.add iterations 1
  | .body => iterations

end BlockRole

end UnitGraph
