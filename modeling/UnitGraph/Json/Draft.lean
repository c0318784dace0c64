import UnitGraph.Json.Number
import UnitGraph.Json.Quoted

/-! # Reading JSON up to its first fault

A reader that wants a certain type stops at the first problem from the left, be it a fault of the
text or a value of the wrong type. A draft keeps what a text shows of a document together with the
places where it breaks off. Readers of types go over a draft from left to right and need not know
about characters. -/

namespace UnitGraph.Json

inductive Stop
  | closed
  /-- There is neither a comma nor the closing bracket. -/
  | cut (fault : Fault)
  /-- A comma is not followed by a key. -/
  | dangling (fault : Fault)

def Stop.fault? : Stop → Option Fault
  | .closed => none
  | .cut fault | .dangling fault => some fault

mutual

/-- A document as far as its text can be read. -/
inductive Draft
  /-- The text ends where a value has to start. -/
  | absent
  /-- No value starts with the character found. -/
  | stray
  /-- A misspelt `null`, `true` or `false`. -/
  | misspelt (fault : Fault)
  | null
  | bool (value : Bool)
  /-- A number, if it can be read, and whether it can be passed over. -/
  | number (value : Except Fault Number) (skip : Option Fault)
  /-- A string, if it can be read, and whether it can be passed over. -/
  | text (value : Except Fault String) (skip : Option Fault)
  | array (items : Items)
  | object (members : Members)
  /-- An object that does not start with a key. -/
  | keyless (fault : Fault)

inductive Items
  | stop (stop : Stop)
  | cons (item : Draft) (rest : Items)

/-- The members of an object; a key may be one that cannot be read but passed over. -/
inductive Members
  | stop (stop : Stop)
  | cons (key : Except Fault String) (value : Draft) (rest : Members)

end

instance : Inhabited Draft := ⟨.absent⟩

/-! ## From text -/

namespace Draft

def isSpace (c : Char) : Bool :=
  c = ' ' || c = '\t' || c = '\n' || c = '\r'

def skipSpace (s : List Char) : List Char :=
  s.dropWhile isSpace

def word : (letters : List Char) → List Char → Except Fault (List Char)
  | [], s => .ok s
  | _ :: _, [] => .error .truncated
  | l :: ls, c :: s => if c = l then word ls s else .error .malformed

def ofWord (letters : List Char) (value : Draft) (s : List Char) : Draft × List Char :=
  match word letters s with
  | .ok rest => (value, rest)
  | .error fault => (.misspelt fault, [])

/-- The draft of a number. One that breaks off cannot be passed over either. -/
def ofNumber (s : List Char) : Draft × List Char :=
  match Number.literal s with
  | .ok (l, rest) => (.number (Number.ofLiteral l) none, rest)
  | .error fault => (.number (.error fault) (some .malformed), [])

def content (s : List Char) : Except Fault String :=
  (Quoted.decode s).map fun (cs, _) => String.ofList cs

def ofText (s : List Char) : Draft × List Char :=
  match Quoted.skip s with
  | .ok rest => (.text (content s) none, rest)
  | .error fault => (.text (content s) (some fault), [])

def missing : Fault → Draft
  | .truncated => .absent
  | _ => .stray

/-- The fault of a place where the text has to go on but does not, or goes on wrongly. -/
def gap : List Char → Fault
  | [] => .truncated
  | _ => .malformed

/-- The fault of a value where one of another type is asked for. Brackets are not looked into. -/
def mismatch : Draft → Fault
  | .absent => .truncated
  | .stray => .malformed
  | .misspelt fault => fault
  | .number (.error fault) _ => fault
  | .text (.error fault) _ => fault
  | _ => .mismatch

mutual

def ofChars : (fuel : Nat) → List Char → Draft × List Char
  | 0, _ => (.absent, [])
  | fuel + 1, s =>
    match skipSpace s with
    | [] => (.absent, [])
    | 'n' :: s => ofWord ['u', 'l', 'l'] .null s
    | 't' :: s => ofWord ['r', 'u', 'e'] (.bool true) s
    | 'f' :: s => ofWord ['a', 'l', 's', 'e'] (.bool false) s
    | '"' :: s => ofText s
    | '[' :: s =>
      let (items, rest) := firstItem fuel (skipSpace s)
      (.array items, rest)
    | '{' :: s =>
      match skipSpace s with
      | '}' :: rest => (.object (.stop .closed), rest)
      | '"' :: s =>
        let (members, rest) := member fuel s
        (.object members, rest)
      | s => (.keyless (gap s), [])
    | c :: s => if c = '-' ∨ c.isDigit then ofNumber (c :: s) else (.stray, [])

def firstItem : (fuel : Nat) → List Char → Items × List Char
  | 0, _ => (.stop (.cut .truncated), [])
  | fuel + 1, s =>
    match s with
    | [] => (.stop (.cut .truncated), [])
    | ']' :: rest => (.stop .closed, rest)
    | s => item fuel s

def item : (fuel : Nat) → List Char → Items × List Char
  | 0, _ => (.stop (.cut .truncated), [])
  | fuel + 1, s =>
    let (value, s) := ofChars fuel s
    match skipSpace s with
    | ']' :: rest => (.cons value (.stop .closed), rest)
    | ',' :: s =>
      let (items, rest) := item fuel s
      (.cons value items, rest)
    | s => (.cons value (.stop (.cut (gap s))), [])

/-- A member after the opening quote of its key, and those that follow it. -/
def member : (fuel : Nat) → List Char → Members × List Char
  | 0, _ => (.stop (.cut .truncated), [])
  | fuel + 1, s =>
    -- A key that cannot be read may still be passed over, so its fault is kept.
    let key := content s
    match Quoted.skip s with
    | .error fault => (.cons key (missing fault) (.stop .closed), [])
    | .ok s =>
      match skipSpace s with
      | ':' :: s =>
        let (value, s) := ofChars fuel s
        match skipSpace s with
        | '}' :: rest => (.cons key value (.stop .closed), rest)
        | ',' :: s =>
          match skipSpace s with
          | '"' :: s =>
            let (members, rest) := member fuel s
            (.cons key value members, rest)
          | s => (.cons key value (.stop (.dangling (gap s))), [])
        | s => (.cons key value (.stop (.cut (gap s))), [])
      | s => (.cons key (missing (gap s)) (.stop .closed), [])

end

end Draft

/-! ## Passing over -/

mutual

/-- The fault that a reader meets who only passes over the value. -/
def Draft.skipFault : Draft → Option Fault
  | .absent => some .truncated
  | .stray => some .malformed
  | .misspelt fault => some fault
  | .null | .bool _ => none
  | .number _ skip => skip
  | .text _ skip => skip
  | .array items => items.skipFault
  | .object members => members.skipFault
  | .keyless fault => some fault

def Items.skipFault : Items → Option Fault
  | .stop stop => stop.fault?
  | .cons item rest => item.skipFault.or rest.skipFault

def Members.skipFault : Members → Option Fault
  | .stop stop => stop.fault?
  | .cons _ value rest => value.skipFault.or rest.skipFault

end

end UnitGraph.Json
