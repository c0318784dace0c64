import UnitGraph.Yaml.Scalar.Block
import UnitGraph.Yaml.Scalar.Plain
import UnitGraph.Yaml.Scalar.Quoted
import UnitGraph.Yaml.Token

/-! # From text to tokens

Outside brackets structure comes from indentation: a line that is indented further opens a block, a
line that is indented less closes blocks. A key is recognised late, at the colon after it, so the
lexer remembers where one may have started. -/

namespace UnitGraph.Yaml

structure KeyStart where
  token : Nat
  place : Place
  /-- Nothing but a key can stand there. -/
  required : Bool
  deriving DecidableEq, Repr

structure Lexer where
  cursor : Cursor
  tokens : Array Token := #[]
  /-- The least column of what belongs to the innermost block. -/
  margin : Nat := 0
  /-- The margins around it, the innermost first. -/
  margins : List Nat := []
  /-- The start of a key inside the innermost brackets. -/
  keyStart : Option KeyStart := none
  /-- The starts of keys around each pair of brackets, the innermost first. -/
  outerKeys : List (Option KeyStart) := []
  keyAllowed : Bool := true

namespace Lexer

def inBrackets (lx : Lexer) : Bool :=
  !lx.outerKeys.isEmpty

def column (lx : Lexer) : Nat :=
  lx.cursor.place.column

def push (lx : Lexer) (t : Token) : Lexer :=
  { lx with tokens := lx.tokens.push t }

def emit (lx : Lexer) (t : Token) (c : Cursor) : Lexer :=
  { lx with tokens := lx.tokens.push t, cursor := c }

/-! ## Keys -/

/-- A key has to end on its line, and within 1024 bytes. -/
def KeyStart.isStale (k : KeyStart) (p : Place) : Bool :=
  k.place.line < p.line || k.place.offset + 1024 < p.offset

/-- Forgets the start of a key that cannot end any more; it is an error when a key is required. -/
def freshKey (p : Place) : Option KeyStart → Option (Option KeyStart)
  | none => some none
  | some k => if KeyStart.isStale k p then if k.required then none else some none else some (some k)

def dropStaleKeys (lx : Lexer) : Option Lexer := do
  let keyStart ← freshKey lx.cursor.place lx.keyStart
  let outerKeys ← lx.outerKeys.mapM (freshKey lx.cursor.place)
  return { lx with keyStart, outerKeys }

def dropKey (lx : Lexer) : Option Lexer :=
  match lx.keyStart with
  | some k => if k.required then none else some { lx with keyStart := none }
  | none => some lx

def saveKey (lx : Lexer) : Option Lexer :=
  if lx.keyAllowed then do
    let lx ← lx.dropKey
    return { lx with keyStart := some {
      token := lx.tokens.size
      place := lx.cursor.place
      -- What starts at the column of the block around it can only be a key.
      required := !lx.inBrackets && lx.margin = lx.column + 1 } }
  else
    some lx

/-! ## Indentation -/

/-- Opens a block at a column that lies within the margin; its token goes to a position. -/
def openBlock (lx : Lexer) (column : Nat) (position : Nat) (t : Token) : Lexer :=
  if !lx.inBrackets && lx.margin ≤ column then
    { lx with
      margin := column + 1
      margins := lx.margin :: lx.margins
      tokens := lx.tokens.insertIdxIfInBounds position t }
  else
    lx

def closeBlocks (limit : Nat) : List Nat → Lexer → Lexer
  | [], lx => lx
  | m :: ms, lx =>
    if limit < lx.margin then
      closeBlocks limit ms { lx.push .blockEnd with margin := m, margins := ms }
    else
      lx

def closeTo (lx : Lexer) (limit : Nat) : Lexer :=
  if lx.inBrackets then lx else closeBlocks limit lx.margins lx

/-! ## Single tokens -/

def indicator (lx : Lexer) (t : Token) (n : Nat) (keyAllowed : Bool) : Option Lexer := do
  let lx ← lx.dropKey
  return { lx.emit t (lx.cursor.advance n) with keyAllowed }

def documentMark (lx : Lexer) (t : Token) : Option Lexer :=
  (lx.closeTo 0).indicator t 3 false

def openBracket (lx : Lexer) (t : Token) : Option Lexer := do
  let lx ← lx.saveKey
  return { lx.emit t lx.cursor.advance with
    outerKeys := lx.keyStart :: lx.outerKeys
    keyStart := none
    keyAllowed := true }

def closeBracket (lx : Lexer) (t : Token) : Option Lexer := do
  let lx ← lx.indicator t 1 false
  match lx.outerKeys with
  | k :: ks => return { lx with keyStart := k, outerKeys := ks }
  | [] => return lx

def entry (lx : Lexer) : Option Lexer :=
  if lx.inBrackets then
    lx.indicator .blockEntry 1 true
  else if lx.keyAllowed then
    (lx.openBlock lx.column lx.tokens.size .blockSequenceStart).indicator .blockEntry 1 true
  else
    none

def explicitKey (lx : Lexer) : Option Lexer :=
  if lx.inBrackets then
    lx.indicator .key 1 false
  else if lx.keyAllowed then
    (lx.openBlock lx.column lx.tokens.size .blockMappingStart).indicator .key 1 true
  else
    none

/-- The colon of a value. If a key may have started, its token goes before what has been read
since. -/
def value (lx : Lexer) : Option Lexer :=
  match lx.keyStart with
  | some k =>
    -- The tokens read since are the key; what was read first turns out to stand inside a mapping.
    let lx := { lx with
      tokens := lx.tokens.insertIdxIfInBounds k.token .key
      keyStart := none
      keyAllowed := false }
    let lx := lx.openBlock k.place.column k.token .blockMappingStart
    some (lx.emit .value lx.cursor.advance)
  | none =>
    if lx.inBrackets then
      some { lx.emit .value lx.cursor.advance with keyAllowed := false }
    -- The key is missing, and a mapping may start with it.
    else if lx.keyAllowed then
      let lx := lx.openBlock lx.column lx.tokens.size .blockMappingStart
      some { lx.emit .value lx.cursor.advance with keyAllowed := true }
    else
      none

def content (lx : Lexer) (read : Cursor → Option (Token × Cursor)) : Option Lexer := do
  let lx ← lx.saveKey
  let (t, c) ← read lx.cursor
  return { lx.emit t c with keyAllowed := false }

def quoted (lx : Lexer) (single : Bool) : Option Lexer :=
  lx.content fun c => (Quoted.read single c).map fun (text, c) => (.scalar false text, c)

def block (lx : Lexer) (literal : Bool) : Option Lexer := do
  let lx ← lx.dropKey
  let (text, c) ← Block.read literal lx.margin lx.cursor
  return { lx.emit (.scalar false text) c with keyAllowed := true }

def plain (lx : Lexer) : Option Lexer := do
  let lx ← lx.saveKey
  let r ← Plain.read lx.inBrackets lx.margin lx.cursor
  return { lx.emit (.scalar true r.text) r.next with keyAllowed := r.broken }

def directive (lx : Lexer) : Option Lexer := do
  let lx ← (lx.closeTo 0).dropKey
  let (t, c) ← readDirective lx.cursor
  return { lx.emit t c with keyAllowed := false }

/-! ## The next token -/

def token (lx : Lexer) : Option Lexer :=
  let atLineStart := lx.column = 0
  -- Directives and document marks only stand at the start of a line.
  match lx.cursor.rest with
  | [] => none
  | c :: s =>
    if atLineStart && c = '%' then lx.directive
    else if atLineStart && atDocumentMark (c :: s) then
      lx.documentMark (if c = '-' then .documentStart else .documentEnd)
    else match c with
    | '[' => lx.openBracket .flowSequenceStart
    | '\x7b' => lx.openBracket .flowMappingStart
    | ']' => lx.closeBracket .flowSequenceEnd
    | '\x7d' => lx.closeBracket .flowMappingEnd
    | ',' => lx.indicator .flowEntry 1 true
    | '*' => lx.content fun c => (readAnchor c).map fun (name, c) => (.alias name, c)
    | '&' => lx.content fun c => (readAnchor c).map fun (name, c) => (.anchor name, c)
    | '!' => lx.content fun c =>
      (readTagForm lx.inBrackets c).map fun (form, c) => (.tag form, c)
    | '\'' => lx.quoted true
    | '"' => lx.quoted false
    | '|' => if lx.inBrackets then none else lx.block true
    | '>' => if lx.inBrackets then none else lx.block false
    | '-' => if atGap s then lx.entry else lx.plain
    | '?' => if lx.inBrackets || atGap s then lx.explicitKey else lx.plain
    | ':' => if lx.inBrackets || atGap s then lx.value else lx.plain
    | c => if isBlank c || isIndicator c then none else lx.plain

/-- Skips to the next token, forgets keys that are too far behind, and closes the blocks that end
before it. -/
def prepare (lx : Lexer) : Option Lexer := do
  let (cursor, keyAllowed) :=
    skipToToken lx.inBrackets false lx.keyAllowed lx.cursor.rest lx.cursor.place
  let lx ← { lx with cursor, keyAllowed }.dropStaleKeys
  return lx.closeTo (lx.column + 1)

def finish (lx : Lexer) : Option (Array Token) := do
  let lx ← (lx.closeTo 0).dropKey
  return lx.tokens.push .streamEnd

def run : (limit : Nat) → Lexer → Option (Array Token)
  | 0, _ => none
  | limit + 1, lx => do
    let lx ← lx.prepare
    if lx.cursor.rest.isEmpty then lx.finish
    else run limit (← lx.token)

end Lexer

/-- The tokens of a text. Each of them but the last takes a character at least. -/
def tokenize (s : List Char) : Option (Array Token) :=
  Lexer.run (s.length + 1) { cursor := { rest := s } }

end UnitGraph.Yaml
