import UnitGraph.Yaml.Lexer

/-! # From tokens to nodes

A node is a scalar, a sequence, a mapping, or an alias of an anchored node. Missing nodes are empty
plain scalars. Anchors are collected while the tokens are read. -/

namespace UnitGraph.Yaml

inductive Node
  | scalar (tag : Option TagBytes) (plain : Bool) (text : List Char)
  | sequence (tag : Option TagBytes) (items : List Node)
  | mapping (tag : Option TagBytes) (entries : List (Node × Node))
  | alias (slot : Nat)
  deriving Inhabited

def Node.missing : Node :=
  .scalar none true []

structure Document where
  root : Node
  /-- The anchored nodes by slot. -/
  anchored : Nat → Option Node
  /-- How many scalars, aliases and ends of collections there are. -/
  size : Nat

/-- The state of reading a document: the tokens that are left, and what has been found. A slot is
the number of anchor names known when an anchor is met. A name that is given again takes a new slot,
which the next new name takes as well; a slot refers to the node that took it last. -/
structure Reading where
  tokens : List Token
  handles : List (List Char × TagBytes)
  slots : Std.ExtHashMap String Nat := ∅
  /-- The number of the anchor that took a slot last. -/
  takers : Std.ExtHashMap Nat Nat := ∅
  /-- The nodes by number of their anchor. -/
  nodes : Std.ExtHashMap Nat Node := ∅
  anchors : Nat := 0
  size : Nat := 0

abbrev Read := StateT Reading Option

namespace Read

def peek : Read Token := do
  return (← get).tokens.headD .streamEnd

def skip : Read Unit :=
  modify fun r => { r with tokens := r.tokens.tail }

def skipIf (t : Token) : Read Bool := do
  if (← peek) = t then
    skip
    return true
  else
    return false

def expect (t : Token) : Read Unit := do
  if !(← skipIf t) then failure

def count (n : Nat) : Read Unit :=
  modify fun r => { r with size := r.size + n }

/-! ## Properties -/

def takeSlot (name : List Char) : Read Nat :=
  modifyGet fun r =>
    let slot := r.slots.size
    (r.anchors, { r with
      slots := r.slots.insert (String.ofList name) slot
      takers := r.takers.insert slot r.anchors
      anchors := r.anchors + 1 })

def anchor (number : Option Nat) (node : Node) : Read Node := do
  match number with
  | some k => modify fun r => { r with nodes := r.nodes.insert k node }
  | none => pure ()
  return node

def resolveTag : TagForm → Read TagBytes
  | .verbatim tag => pure tag
  | .shorthand handle rest => do
    match (← get).handles.find? (·.1 = handle) with
    | some (_, expansion) => return expansion ++ rest
    | none => failure

structure Properties where
  anchorName : Option (List Char) := none
  tag : Option TagForm := none

def properties : Read Properties := do
  match ← peek with
  | .anchor name =>
    skip
    match ← peek with
    | .tag form =>
      skip
      return ⟨some name, some form⟩
    | _ => return ⟨some name, none⟩
  | .tag form =>
    skip
    match ← peek with
    | .anchor name =>
      skip
      return ⟨some name, some form⟩
    | _ => return ⟨none, some form⟩
  | _ => return {}

/-! ## Nodes

A node may be missing before the tokens that close or continue what is around it. -/

def orMissing (closing : Token → Bool) (node : Read Node) : Read Node := do
  if closing (← peek) then
    count 1
    return .missing
  else
    node

mutual

/-- Reads a node. Block collections only stand outside brackets; `entries` tells whether sequence
entries without indentation of their own may stand here. -/
def node (fuel : Nat) (block entries : Bool) : Read Node := do
  match fuel with
  | 0 => failure
  | fuel + 1 =>
    match ← peek with
    | .alias name =>
      skip
      count 1
      match (← get).slots[String.ofList name]? with
      | some slot => return .alias slot
      | none => failure
    | _ =>
      -- The slot is taken before the node is read, so a node may contain an alias of itself.
      let p ← properties
      let tag ← p.tag.mapM resolveTag
      let number ← p.anchorName.mapM takeSlot
      let found (size : Nat) (n : Node) : Read Node := do
        count size
        anchor number n
      match ← peek with
      | .scalar plain text =>
        skip
        found 1 (.scalar tag plain text)
      | .flowSequenceStart =>
        skip
        -- A collection counts twice, once for each end.
        found 2 (.sequence tag (← flowItems fuel true))
      | .flowMappingStart =>
        skip
        found 2 (.mapping tag (← flowEntries fuel true))
      | .blockSequenceStart =>
        if block then
          skip
          found 2 (.sequence tag (← blockItems fuel))
        else
          absent p tag number
      | .blockMappingStart =>
        if block then
          skip
          found 2 (.mapping tag (← blockEntries fuel))
        else
          absent p tag number
      | .blockEntry =>
        if entries then
          found 2 (.sequence tag (← plainItems fuel))
        else
          absent p tag number
      | _ => absent p tag number

/-- The empty scalar that only has properties; without any there is no node. -/
def absent (p : Properties) (tag : Option TagBytes) (number : Option Nat) : Read Node := do
  if p.anchorName.isSome || p.tag.isSome then
    count 1
    anchor number (.scalar tag true [])
  else
    failure

def blockItems (fuel : Nat) : Read (List Node) := do
  match fuel with
  | 0 => failure
  | fuel + 1 =>
    if ← skipIf .blockEntry then
      let item ← orMissing (fun t => t = .blockEntry || t = .blockEnd) (node fuel true false)
      return item :: (← blockItems fuel)
    else
      expect .blockEnd
      return []

/-- The items of a block sequence without indentation of its own. -/
def plainItems (fuel : Nat) : Read (List Node) := do
  match fuel with
  | 0 => failure
  | fuel + 1 =>
    -- Such a sequence has no token for its end: it ends where no entry follows.
    if ← skipIf .blockEntry then
      let item ← orMissing
        (fun t => t = .blockEntry || t = .key || t = .value || t = .blockEnd)
        (node fuel true false)
      return item :: (← plainItems fuel)
    else
      return []

def blockEntries (fuel : Nat) : Read (List (Node × Node)) := do
  match fuel with
  | 0 => failure
  | fuel + 1 =>
    let closing (t : Token) : Bool := t = .key || t = .value || t = .blockEnd
    if ← skipIf .key then
      let key ← orMissing closing (node fuel true true)
      let value ← if ← skipIf .value then orMissing closing (node fuel true true)
        else orMissing (fun _ => true) failure
      return (key, value) :: (← blockEntries fuel)
    else
      expect .blockEnd
      return []

/-- The items of a sequence in brackets and its end. An item may be a single entry of a mapping. -/
def flowItems (fuel : Nat) (first : Bool) : Read (List Node) := do
  match fuel with
  | 0 => failure
  | fuel + 1 =>
    if ← skipIf .flowSequenceEnd then
      return []
    if !first then
      expect .flowEntry
    match ← peek with
    | .flowSequenceEnd =>
      skip
      return []
    | .key =>
      skip
      let item ← pair fuel
      return item :: (← flowItems fuel false)
    | _ =>
      let item ← node fuel false false
      return item :: (← flowItems fuel false)

/-- The mapping of one entry in a sequence, after its key token. Where the key is missing, the
token after it is passed over. -/
def pair (fuel : Nat) : Read Node := do
  match fuel with
  | 0 => failure
  | fuel + 1 =>
    let closing (t : Token) : Bool := t = .value || t = .flowEntry || t = .flowSequenceEnd
    let key ← if closing (← peek) then do
        skip
        orMissing (fun _ => true) failure
      else
        node fuel false false
    let value ← if ← skipIf .value then
        orMissing (fun t => t = .flowEntry || t = .flowSequenceEnd) (node fuel false false)
      else
        orMissing (fun _ => true) failure
    count 2
    return .mapping none [(key, value)]

def flowEntries (fuel : Nat) (first : Bool) : Read (List (Node × Node)) := do
  match fuel with
  | 0 => failure
  | fuel + 1 =>
    if ← skipIf .flowMappingEnd then
      return []
    if !first then
      expect .flowEntry
    match ← peek with
    | .flowMappingEnd =>
      skip
      return []
    | .key =>
      skip
      let key ← orMissing (fun t => t = .value || t = .flowEntry || t = .flowMappingEnd)
        (node fuel false false)
      let value ← if ← skipIf .value then
          orMissing (fun t => t = .flowEntry || t = .flowMappingEnd) (node fuel false false)
        else
          orMissing (fun _ => true) failure
      return (key, value) :: (← flowEntries fuel false)
    | _ =>
      let key ← node fuel false false
      let value ← orMissing (fun _ => true) failure
      return (key, value) :: (← flowEntries fuel false)

end

/-! ## Documents -/

def standardHandles : List (List Char × TagBytes) :=
  [(['!'], [33]), (['!', '!'], "tag:yaml.org,2002:".toUTF8.toList)]

/-- Reads directives: at most one version, which has to be 1.1 or 1.2, and each tag handle once.
Gives the number of directives. -/
def directives : (fuel : Nat) → (versioned : Bool) → List (List Char × TagBytes) → Read Nat
  | 0, _, _ => failure
  | fuel + 1, versioned, handles => do
    match ← peek with
    | .versionDirective major minor =>
      if versioned || major ≠ 1 || (minor ≠ 1 && minor ≠ 2) then failure
      skip
      return (← directives fuel true handles) + 1
    | .tagDirective handle expansion =>
      if handles.any (·.1 = handle) then failure
      skip
      return (← directives fuel versioned (handles ++ [(handle, expansion)])) + 1
    | _ =>
      modify fun r => { r with handles := handles ++ standardHandles }
      return 0

def documentEnds : (fuel : Nat) → Read Unit
  | 0 => failure
  | fuel + 1 => do
    if ← skipIf .documentEnd then documentEnds fuel

/-- Reads the document of a stream that holds at most one; an empty stream holds a missing node. -/
def stream (fuel : Nat) : Read Node := do
  if (← peek) = .streamEnd then
    return .missing
  let found ← directives fuel false []
  let root ←
    if ← skipIf .documentStart then
      orMissing
        (fun
          | .versionDirective .. | .tagDirective .. | .documentStart | .documentEnd
          | .streamEnd => true
          | _ => false)
        (node fuel true false)
    -- Directives have to be followed by the mark of a document's start.
    else if found = 0 then
      node fuel true false
    else
      failure
  documentEnds fuel
  expect .streamEnd
  return root

end Read

/-- The document that tokens form. Every step of reading takes a token or goes one level down in
a chain of at most four before the next token. -/
def Document.ofTokens? (tokens : List Token) : Option Document := do
  let start : Reading := { tokens, handles := Read.standardHandles }
  let (root, r) ← (Read.stream (4 * tokens.length + 4)).run start
  return {
    root
    anchored := fun slot => do r.nodes[← r.takers[slot]?]?
    size := r.size }

end UnitGraph.Yaml
