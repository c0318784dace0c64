import UnitGraph.Count

/-! # Detection reports -/

namespace UnitGraph

structure Outcome where
  node : Nat
  id : String
  name : String
  /-- Every loop under the function can be split across workers. -/
  matched : Bool
  /-- Matched, and every chunking loop runs at least once per invocation. -/
  reported : Bool
  /-- The least effective iteration count of the chunking loops. -/
  minIterations : Option Count
  blockingLoop : Option String
  deriving DecidableEq, Repr

structure Report where
  functions : List Outcome
  entry : Option String
  deriving DecidableEq, Repr

namespace Report

def matched (r : Report) : List Outcome :=
  r.functions.filter Outcome.matched

def reported (r : Report) : List Outcome :=
  r.functions.filter Outcome.reported

def outcome? (r : Report) (id : String) : Option Outcome :=
  r.functions.find? (·.id = id)

def isReported (r : Report) (id : String) : Bool :=
  (r.outcome? id).any Outcome.reported

end Report

/-- What a run announces as it goes. -/
inductive Notice
  | started (functions : Nat)
  | found (name id : String)
  | finished (functions matched reported : Nat)
  deriving DecidableEq, Repr

namespace Notice

def text : Notice → String
  | .started functions => s!"geometric decomposition detection started functions={functions}"
  | .found name id => s!"Geometric decomposition at {id} function={name} id={id}"
  | .finished functions matched reported =>
    s!"geometric decomposition detection finished functions={functions} matched={matched} "
      ++ s!"reported={reported}"

def ofOutcome (o : Outcome) : List Notice :=
  if o.reported then [.found o.name o.id] else []

def ofOutcomes (outcomes : List Outcome) : List Notice :=
  .started outcomes.length :: outcomes.flatMap ofOutcome

def ofReport (r : Report) : List Notice :=
  ofOutcomes r.functions
    ++ [.finished r.functions.length r.matched.length r.reported.length]

end Notice

end UnitGraph
