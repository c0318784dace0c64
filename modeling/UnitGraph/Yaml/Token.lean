import UnitGraph.Text
import UnitGraph.Yaml.Cursor

/-! # Tokens -/

namespace UnitGraph.Yaml

/-- The bytes of a tag or of a part of one. Escapes may make them no text. -/
abbrev TagBytes := List UInt8

inductive TagForm
  | verbatim (tag : TagBytes)
  /-- A handle, which stands for the beginning of the tag, and the rest. -/
  | shorthand (handle : List Char) (rest : TagBytes)
  deriving DecidableEq, Repr

inductive Token
  | streamEnd
  | versionDirective (major minor : Nat)
  | tagDirective (handle : List Char) (expansion : TagBytes)
  | documentStart
  | documentEnd
  | blockSequenceStart
  | blockMappingStart
  | blockEnd
  | flowSequenceStart
  | flowSequenceEnd
  | flowMappingStart
  | flowMappingEnd
  | blockEntry
  | flowEntry
  | key
  | value
  | alias (name : List Char)
  | anchor (name : List Char)
  | tag (form : TagForm)
  | scalar (plain : Bool) (text : List Char)
  deriving DecidableEq, Repr

/-! ## Names -/

def readAnchor (c : Cursor) : Option (List Char × Cursor) :=
  let (name, c) := c.advance.span isNameChar
  let delimited := atGap c.rest || match c.rest with
    | d :: _ => d = '?' || d = ':' || d = ',' || d = ']' || d = '\x7d' || d = '%' || d = '@'
      || d = '\x60'
    | [] => true
  if name.isEmpty || !delimited then none else some (name, c)

/-! ## Tags -/

/-- The characters of tags; commas and square brackets only stand in verbatim ones and in
directives. -/
def isTagChar (withBrackets : Bool) (c : Char) : Bool :=
  isNameChar c || c = ';' || c = '/' || c = '?' || c = ':' || c = '@' || c = '&' || c = '='
    || c = '+' || c = '$' || c = '.' || c = '!' || c = '~' || c = '*' || c = '\'' || c = '('
    || c = ')' || (withBrackets && (c = ',' || c = '[' || c = ']'))

def byteWidth? (b : Nat) : Option Nat :=
  if b < 0x80 then some 1
  else if 0xC0 ≤ b && b < 0xE0 then some 2
  else if 0xE0 ≤ b && b < 0xF0 then some 3
  else if 0xF0 ≤ b && b < 0xF8 then some 4
  else none

/-- The bytes of a tag from a place on. An escape is a percent sign with two hexadecimal digits;
`trailing` further bytes of a character have to follow as escapes. -/
def scanTag (withBrackets : Bool) (acc : TagBytes) (trailing : Nat) :
    List Char → Place → Option (TagBytes × Cursor)
  | '%' :: h :: l :: s, p => do
    let b := 16 * (← Text.Numeral.digitValue? 16 h) + (← Text.Numeral.digitValue? 16 l)
    -- An escape starts a character or continues the one under way, by what is still missing of it.
    let left ← match trailing with
      | 0 => (byteWidth? b).map (· - 1)
      | left + 1 => if 0x80 ≤ b && b < 0xC0 then some left else none
    scanTag withBrackets (UInt8.ofNat b :: acc) left s (p.advance 3)
  | c :: s, p =>
    if trailing ≠ 0 || c = '%' then none
    else if isTagChar withBrackets c then
      scanTag withBrackets (UInt8.ofNat c.toNat :: acc) 0 s p.advance
    else some (acc.reverse, ⟨c :: s, p⟩)
  | [], p => if trailing ≠ 0 then none else some (acc.reverse, ⟨[], p⟩)

def TagBytes.upToZero (tag : TagBytes) : TagBytes :=
  tag.takeWhile (· ≠ 0)

def readTag (withBrackets : Bool) (c : Cursor) : Option (TagBytes × Cursor) := do
  let (tag, c) ← scanTag withBrackets [] 0 c.rest c.place
  if tag.isEmpty then none else some (tag.upToZero, c)

def readNamedTag (name : List Char) (c : Cursor) : Option (TagBytes × Cursor) := do
  let start := name.map fun d => UInt8.ofNat d.toNat
  let (tag, c) ← scanTag false start.reverse 0 c.rest c.place
  return (tag.upToZero, c)

/-- A tag handle at a cursor: an exclamation mark, or a name between two. A name without the second
one is only the start of a tag. -/
def readHandle (c : Cursor) : Option (List Char × Cursor) :=
  match c.rest with
  | '!' :: _ =>
    let (name, c) := c.advance.span isNameChar
    match c.rest with
    | '!' :: _ => some ('!' :: name ++ ['!'], c.advance)
    | _ => some ('!' :: name, c)
  | _ => none

/-- The tag of a node. It has to be followed by a gap, or by a comma in brackets. -/
def readTagForm (inBrackets : Bool) (c : Cursor) : Option (TagForm × Cursor) := do
  let (form, c) ← match c.rest with
    | '!' :: '<' :: _ => do
      let (tag, c) ← readTag true (c.advance 2)
      if c.rest.head? ≠ some '>' then none else some (TagForm.verbatim tag, c.advance)
    | _ => do
      let (handle, after) ← readHandle c
      if handle.length > 1 && handle.getLast? = some '!' then
        let (rest, c) ← readTag false after
        some (.shorthand handle rest, c)
      else
        -- There is no handle: what was read is the start of the tag, or all of it.
        let (rest, c) ← readNamedTag (handle.drop 1) after
        if rest.isEmpty then some (.verbatim [33], c) else some (.shorthand ['!'] rest, c)
  if atGap c.rest || (inBrackets && c.rest.head? = some ',') then some (form, c) else none

/-! ## Directives -/

def readVersionNumber (c : Cursor) : Option (Nat × Cursor) :=
  let (digits, c) := c.span Char.isDigit
  if digits.length ≤ 9 then (Text.Numeral.read? 10 digits).map (·, c) else none

def readDirective (c : Cursor) : Option (Token × Cursor) := do
  let (name, c) := c.advance.span isNameChar
  if !atGap c.rest then none
  let (token, c) ← match String.ofList name with
    | "YAML" => do
      let (major, c) ← readVersionNumber c.skipBlanks
      if c.rest.head? ≠ some '.' then none
      let (minor, c) ← readVersionNumber c.advance
      some (Token.versionDirective major minor, c)
    | "TAG" => do
      let (handle, c) ← readHandle c.skipBlanks
      if handle ≠ ['!'] && (handle.length < 2 || handle.getLast? ≠ some '!') then none
      if !(c.rest.head?.any isBlank) then none
      let (expansion, c) ← readTag true c.skipBlanks
      if !atGap c.rest then none
      some (Token.tagDirective handle expansion, c)
    | _ => none
  return (token, ← c.endLine)

end UnitGraph.Yaml
