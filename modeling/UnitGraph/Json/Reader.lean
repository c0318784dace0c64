import UnitGraph.Json.Draft

/-! # Reading typed values

Readers of basic types, lists, records and variants. Each goes from left to right and stops at the
first fault. A record is read from an object, or from an array of its fields in order; a variant is
its name, or an object from its name to its content. -/

namespace UnitGraph.Json

abbrev Reader (α : Type) := Draft → Except Fault α

namespace Draft

/-! ## Basic types -/

def asText : Reader String
  | .text value _ => value
  | d => .error d.mismatch

def asBool : Reader Bool
  | .bool value => .ok value
  | d => .error d.mismatch

def asCount : Reader Count
  | .number (.ok (.natural n)) _ => .ok n
  | d => .error d.mismatch

def asFloat : Reader Float
  | .number (.ok n) _ => .ok n.toFloat
  | d => .error d.mismatch

def asLine : Reader SourceLine := fun d => do
  match SourceLine.parse (← d.asText) with
  | .ok line => return line
  | .error m => throw (.unfit (some m))

def asOption {α : Type} (read : Reader α) : Reader (Option α)
  | .null => .ok none
  | d => (read d).map some

def asNull : Reader Unit
  | .null => .ok ()
  | d => .error d.mismatch

/-! ## Lists -/

def atStop {α : Type} (a : α) (s : Stop) : Except Fault α :=
  match s.fault? with
  | none => .ok a
  | some fault => .error fault

def readItems {α : Type} (read : Reader α) : Items → Except Fault (List α)
  | .stop s => atStop [] s
  | .cons item rest => do
    let a ← read item
    let as ← readItems read rest
    return a :: as

def asList {α : Type} (read : Reader α) : Reader (List α)
  | .array items => readItems read items
  | d => .error d.mismatch

end Draft

/-! ## Records -/

/-- The fields of a record, each under one or more names, and how to read one into what has been
read so far. -/
structure Record (σ : Type) where
  /-- The fields in order; the first name of a field is the one that `put` knows. -/
  fields : List (List String)
  /-- Other fields are refused and not passed over. -/
  closed : Bool := false
  put : σ → String → Draft → Except Fault σ

namespace Record

variable {σ : Type}

def field? (r : Record σ) (name : String) : Option String :=
  (r.fields.find? (·.contains name)).bind List.head?

/-- Reads the members of an object; a field must not come twice. -/
def readMembers (r : Record σ) (seen : List String) (so : σ) : Members → Except Fault σ
  | .stop s => Draft.atStop so s
  | .cons key value rest => do
    match r.field? (← key) with
    | some name =>
      if seen.contains name then
        throw .mismatch
      r.readMembers (name :: seen) (← r.put so name value) rest
    | none =>
      if r.closed then
        throw .mismatch
      -- The value of an unknown field only has to be one that can be passed over.
      match value.skipFault with
      | some fault => throw fault
      | none => r.readMembers seen so rest

/-- Reads the items of an array as the fields in order. Fields at the end may be left out, but
nothing may follow the last one. -/
def readItems (r : Record σ) (so : σ) : (fields : List (List String)) → Items → Except Fault σ
  | _, .stop s => Draft.atStop so s
  | [], .cons .. => .error .malformed
  | names :: fields, .cons item rest => do
    r.readItems (← r.put so (names.headD "") item) fields rest

def read (r : Record σ) (start : σ) : Reader σ
  | .object members => r.readMembers [] start members
  | .array items => r.readItems start r.fields items
  | .keyless fault => .error fault
  | d => .error d.mismatch

def needed {α : Type} (value : Option α) : Except Fault α :=
  match value with
  | some a => .ok a
  | none => .error .mismatch

end Record

/-! ## Maps -/

namespace Draft

def readEntries {κ α : Type} (key : String → Except Fault κ) (value : Reader α) :
    Members → Except Fault (List (κ × α))
  | .stop s => atStop [] s
  | .cons name draft rest => do
    let k ← key (← name)
    let a ← value draft
    let entries ← readEntries key value rest
    return (k, a) :: entries

def asEntries {κ α : Type} (key : String → Except Fault κ) (value : Reader α) :
    Reader (List (κ × α))
  | .object members => readEntries key value members
  | .keyless fault => .error fault
  | d => .error d.mismatch

/-! ## Variants -/

inductive Variant (α : Type)
  /-- By its name alone, or with `null` as its content. -/
  | plain (value : α)
  /-- With content that has to be read. -/
  | holding (read : Reader α)

def Variant.content {α : Type} : Variant α → Reader α
  | .plain value => fun d => d.asNull.map fun _ => value
  | .holding read => read

/-- After the content of a variant, only the closing brace may follow. -/
def afterContent {α : Type} (a : α) : Members → Except Fault α
  | .stop .closed => .ok a
  | .stop (.cut fault) => .error fault
  | .stop (.dangling _) | .cons .. => .error .malformed

def asVariant {α : Type} (variant? : String → Option (Variant α)) : Reader α
  | .text name _ => do
    match variant? (← name) with
    | some (.plain value) => return value
    | _ => throw .mismatch
  | .object (.cons name content rest) => do
    match variant? (← name) with
    | some v => afterContent (← v.content content) rest
    | none => throw .mismatch
  | .keyless fault => .error fault
  | .absent => .error .truncated
  | _ => .error .malformed

def asName {α : Type} (named? : String → Option α) : Reader α :=
  asVariant fun name => (named? name).map .plain

end Draft

/-! ## Texts -/

def draft (text : String) : Draft × List Char :=
  let s := text.toList
  Draft.ofChars (3 * s.length + 3) s

def decode {α : Type} (read : Reader α) (text : String) : Except Fault α := do
  let (d, rest) := draft text
  let a ← read d
  if Draft.skipSpace rest = [] then
    return a
  else
    throw .malformed

end UnitGraph.Json
