import Std.Data.ExtTreeMap
import UnitGraph.Count
import UnitGraph.SourceLine

/-! # Iteration profiles

A profile maps loop header lines to measured iteration counts. A count is summed over every
invocation of the loop, so that of a nested loop includes the iterations of the loops around it. -/

namespace UnitGraph

structure Profile where
  counts : Std.ExtTreeMap SourceLine Count

namespace Profile

def empty : Profile := ⟨∅⟩

instance : Inhabited Profile := ⟨empty⟩

def insert (p : Profile) (line : SourceLine) (count : Count) : Profile :=
  ⟨p.counts.insert line count⟩

/-- The profile of a list of measurements; of two for one line the later counts. -/
def ofList (entries : List (SourceLine × Count)) : Profile :=
  entries.foldl (fun p (line, count) => p.insert line count) empty

def get? (p : Profile) (line : SourceLine) : Option Count :=
  p.counts[line]?

def get (p : Profile) (line : SourceLine) : Count :=
  (p.get? line).getD 0

def contains (p : Profile) (line : SourceLine) : Bool :=
  (p.get? line).isSome

def size (p : Profile) : Nat :=
  p.counts.size

def toList (p : Profile) : List (SourceLine × Count) :=
  p.counts.toList

instance : BEq Profile := ⟨fun p q => p.toList == q.toList⟩

end Profile

end UnitGraph
