import UnitGraph.Analysis.Profile
import UnitGraph.Graph.Basic

/-! # Effective iterations

A profile counts the iterations of a loop over all its invocations. The effective count is the one
of a single invocation: the measured count divided by that of the nearest enclosing loop, which is
taken as at least 1. A loop that ran less often than the one around it keeps its count. Results are
remembered per node until the profile is replaced. -/

namespace UnitGraph

structure Estimator where
  profile : Profile
  memo : Std.ExtHashMap Nat Count

namespace Estimator

def new (profile : Profile) : Estimator :=
  ⟨profile, ∅⟩

instance : Inhabited Estimator := ⟨new .empty⟩

def reset (_ : Estimator) (profile : Profile) : Estimator :=
  new profile

def raw (e : Estimator) (g : Graph) (n : Nat) : Count :=
  (g.node? n).elim 0 fun node => e.profile.get node.line

/-- The measured count of the nearest enclosing loop, at least 1; 1 without such a loop. -/
def parent (e : Estimator) (g : Graph) (n : Nat) : Count :=
  (g.enclosingLoop? n).elim 1 fun loop => max (e.raw g loop) 1

/-- The count of one invocation from the measured counts of a loop and of the loop around it. -/
def perInvocation (raw parent : Count) : Count :=
  if raw < parent then raw
  else if raw = 0 ∨ parent = 0 then 0
  else raw / parent

def effective (e : Estimator) (g : Graph) (n : Nat) : Count × Estimator :=
  match e.memo[n]? with
  | some known => (known, e)
  | none =>
    let count := perInvocation (e.raw g n) (e.parent g n)
    (count, { e with memo := e.memo.insert n count })

def memoized (e : Estimator) : Nat :=
  e.memo.size

end Estimator

end UnitGraph
