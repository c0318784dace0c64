import UnitGraph.Analysis.Session
import UnitGraph.Detection.Report
import UnitGraph.Detection.Verdict

/-! # Detecting geometric decomposition

A function decomposes geometrically when every loop under it can be split across workers. It is
reported when, besides, its chunking loops exist and each runs at least once per invocation. The
chunking loops are the loops directly under the function and directly under functions that are
directly under it. -/

namespace UnitGraph

structure Detector where
  config : Config
  verdicts : VerdictSource

namespace Detector

def new (config : Config) : Detector :=
  ⟨config, storedVerdict⟩

def withScores (config : Config) (scores : List (String × Float)) : Detector :=
  ⟨config, (SuitabilityScores.ofList config.threshold scores).verdict⟩

def findBlockingLoop (d : Detector) (s : Session) (n : Nat) : Option Nat :=
  (s.index.subtreeOfKind s.graph n .loop).find? fun l =>
    !(d.verdicts s.graph l).isParallelizable

def matchesPattern (d : Detector) (s : Session) (n : Nat) : Bool :=
  (d.findBlockingLoop s n).isNone

end Detector

/-- The loops directly under a node, then those directly under its function children. -/
def Graph.chunkLoops (g : Graph) (n : Nat) : List Nat :=
  g.childrenOfKind n .loop ++
    (g.childrenOfKind n .function).flatMap fun f => g.childrenOfKind f .loop

abbrev HeaderCounts := Std.ExtTreeMap SourceLine Count

/-- Adds the count of a loop under its header line; the last loop of a line counts. -/
def countHeader (state : HeaderCounts × Session) (loop : Nat) : HeaderCounts × Session :=
  let (counts, s) := state
  match s.graph.node? loop with
  -- A missing node has no header line to be counted under.
  | none => (counts, s)
  | some node =>
    let (count, s) := s.effectiveIterations loop
    (counts.insert node.line count, s)

namespace Detector

/-- The least effective iteration count of the chunking loops, where loops of one header line
count once; `none` without such loops. -/
def minChunkIterations (s : Session) (n : Nat) : Option Count × Session :=
  let (counts, s) := (s.graph.chunkLoops n).foldl countHeader (∅, s)
  ((counts.toList.map Prod.snd).min?, s)

def passesChunkLimit (s : Session) (n : Nat) : Bool × Session :=
  let (least, s) := minChunkIterations s n
  (least.any (0 < ·), s)

/-- Evaluates one node as a function. A missing node has an empty identifier and name. -/
def evaluate (d : Detector) (s : Session) (n : Nat) : Outcome × Session :=
  let g := s.graph
  let blocking := d.findBlockingLoop s n
  let matched := blocking.isNone
  -- A blocked function is not asked for its counts, so the session remembers nothing of it.
  let (least, s) := if matched then minChunkIterations s n else (none, s)
  ({ node := n
     id := (g.node? n).elim "" Node.id
     name := (g.node? n).elim "" Node.displayName
     matched
     reported := matched && least.any (0 < ·)
     minIterations := least
     blockingLoop := (blocking.bind g.node?).map Node.id }, s)

def evaluateEach (d : Detector) (s : Session) : List Nat → List Outcome × Session
  | [] => ([], s)
  | n :: ns =>
    let (outcome, s) := d.evaluate s n
    let (outcomes, s) := d.evaluateEach s ns
    (outcome :: outcomes, s)

def evaluateAll (d : Detector) (s : Session) : List Outcome × Session :=
  d.evaluateEach s s.graph.functions

def record (g : Graph) (o : Outcome) : Graph :=
  match g.annotate o.node o.matched with
  | .ok g => g
  | .error _ => g

/-- Evaluates every function in a session of its own and records the verdicts. -/
def run (d : Detector) (g : Graph) (profile : Profile) : Report × Graph :=
  let (outcomes, _) := d.evaluateAll (.new g profile d.config)
  let recorded := outcomes.foldl record g
  let entry := (recorded.findFunction? d.config.mainFunction).bind recorded.node?
  (⟨outcomes, entry.map Node.id⟩, recorded)

end Detector

end UnitGraph
