import UnitGraph.Analysis.Profile
import UnitGraph.Codec.Model
import UnitGraph.Detection.Report

/-! # JSON forms of profiles and reports

What a run is given beside the graph, and what it gives. In a report the number of a node is not
written, and absent members are left out. -/

namespace UnitGraph

open Json

/-! ## Profiles -/

namespace Profile

def entriesDocument (entries : List (SourceLine × Count)) : Document :=
  .object (entries.map fun (line, count) => (line.text, count.document))

def document (p : Profile) : Document :=
  entriesDocument p.toList

def key (name : String) : Except Fault SourceLine :=
  match SourceLine.parse name with
  | .ok line => .ok line
  | .error m => .error (.unfit (some m))

/-- Reads a profile; of two keys for one line the later counts. -/
def reader : Reader Profile := fun d =>
  (d.asEntries key Draft.asCount).map ofList

end Profile

/-! ## Reports -/

def Outcome.document (o : Outcome) : Document :=
  .ofSome [("id", some (.text o.id)), ("name", some (.text o.name)),
    ("matched", some (.bool o.matched)), ("reported", some (.bool o.reported)),
    ("min_iterations", o.minIterations.map Count.document),
    ("blocking_loop", o.blockingLoop.map .text)]

def Report.document (r : Report) : Document :=
  .ofSome [("functions", some (.array (r.functions.map Outcome.document))),
    ("entry_function", r.entry.map .text)]

end UnitGraph
