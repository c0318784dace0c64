import UnitGraph.Analysis.Dependences
import UnitGraph.Analysis.Workload

/-! # Analysis sessions

A session holds what one analysis run over a graph keeps: the subtree index, the profile and the
effective iterations found so far. -/

namespace UnitGraph

structure Session where
  graph : Graph
  index : SubtreeIndex
  iterations : Estimator
  markers : Markers

namespace Session

def new (g : Graph) (profile : Profile) (config : Config) : Session where
  graph := g
  index := .build g
  iterations := .new profile
  markers := config.markers

def profile (s : Session) : Profile :=
  s.iterations.profile

def resetProfile (s : Session) (profile : Profile) : Session :=
  { s with iterations := s.iterations.reset profile }

def classifier (s : Session) : Classifier :=
  ⟨s.graph, s.index⟩

def effectiveIterations (s : Session) (n : Nat) : Count × Session :=
  let (count, e) := s.iterations.effective s.graph n
  (count, { s with iterations := e })

def effectiveIterationsOf (s : Session) : List Nat → List Count × Session
  | [] => ([], s)
  | n :: ns =>
    let (count, s) := s.effectiveIterations n
    let (counts, s) := s.effectiveIterationsOf ns
    (count :: counts, s)

def workload (s : Session) (n : Nat) : Except GraphError Count × Session :=
  let (result, e) := Workload.estimate s.markers s.graph s.index n s.iterations
  (result, { s with iterations := e })

def totalInstructions (s : Session) (n : Nat) : Count :=
  Workload.totalInstructions s.graph s.index n

end Session

end UnitGraph
