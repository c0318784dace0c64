import UnitGraph.SourceLine

/-! # Data dependences

A dependence says that two units touch one variable, in which order they read and write it, and
on which lines. -/

namespace UnitGraph

inductive DependenceKind
  | raw
  | waw
  | war
  deriving DecidableEq, Repr

namespace DependenceKind

def tag : DependenceKind → String
  | .raw => "RAW"
  | .waw => "WAW"
  | .war => "WAR"

def ofTag? : String → Option DependenceKind
  | "RAW" => some .raw
  | "WAW" => some .waw
  | "WAR" => some .war
  | _ => none

theorem ofTag?_tag (k : DependenceKind) : ofTag? k.tag = some k := by
  cases k <;> rfl

def writesAtSink : DependenceKind → Bool
  | .raw => false
  | .waw | .war => true

end DependenceKind

structure Dependence where
  kind : DependenceKind
  var : String
  sourceLine : SourceLine
  sinkLine : SourceLine
  deriving DecidableEq, Repr

/-- Source and sink are on one line, as for `i++` in a loop header. -/
def Dependence.isSelfReferential (d : Dependence) : Bool :=
  d.sourceLine = d.sinkLine

inductive EdgeLabel
  | child
  | dependence (d : Dependence)
  deriving DecidableEq, Repr

namespace EdgeLabel

def isChild : EdgeLabel → Bool
  | .child => true
  | .dependence _ => false

def dependence? : EdgeLabel → Option Dependence
  | .child => none
  | .dependence d => some d

def isDependenceOf (l : EdgeLabel) (kind : DependenceKind) : Bool :=
  l.dependence?.any (·.kind = kind)

end EdgeLabel

end UnitGraph
