import UnitGraph.Yaml.Character

/-! # Places in a text

A place counts the lines before it, and the characters and bytes before it on its line. A carriage
return with a line feed is one line end. -/

namespace UnitGraph.Yaml

structure Place where
  line : Nat := 0
  /-- The number of characters before it on its line. -/
  column : Nat := 0
  /-- The number of bytes that these characters take. -/
  offset : Nat := 0
  deriving DecidableEq, Repr

namespace Place

def past (p : Place) (c : Char) : Place :=
  { p with column := p.column + 1, offset := p.offset + c.utf8Size }

/-- The place after `n` characters of the same line that take one byte each. -/
def advance (p : Place) (n : Nat := 1) : Place :=
  { p with column := p.column + n, offset := p.offset + n }

def nextLine (p : Place) : Place :=
  ⟨p.line + 1, 0, 0⟩

end Place

structure Cursor where
  rest : List Char
  place : Place := {}

namespace Cursor

def advance (c : Cursor) (n : Nat := 1) : Cursor :=
  ⟨c.rest.drop n, c.place.advance n⟩

def span (c : Cursor) (p : Char → Bool) : List Char × Cursor :=
  let taken := c.rest.takeWhile p
  (taken, ⟨c.rest.dropWhile p, taken.foldl Place.past c.place⟩)

def skipBlanks (c : Cursor) : Cursor :=
  (c.span isBlank).2

def skipComment (c : Cursor) : Cursor :=
  match c.rest with
  | '#' :: _ => (c.span (!isBreak ·)).2
  | _ => c

def skipBreak (c : Cursor) : Cursor :=
  match c.rest with
  | '\r' :: '\n' :: rest => ⟨rest, c.place.nextLine⟩
  | b :: rest => if isBreak b then ⟨rest, c.place.nextLine⟩ else c
  | [] => c

/-- The end of a line that holds nothing more but a comment: the cursor on the next line. -/
def endLine (c : Cursor) : Option Cursor :=
  let c := c.skipBlanks.skipComment
  match c.rest with
  | [] => some c
  | b :: _ => if isBreak b then some c.skipBreak else none

end Cursor

/-! ## Blank space between tokens -/

/-- Skips blanks, comments and line ends up to the next token. Tabs only count as blanks where no
line can start with them. Outside brackets a line end allows a key to start; `keyAllowed` tells
whether one may. -/
def skipToToken (inBrackets : Bool) :
    (inComment keyAllowed : Bool) → List Char → Place → Cursor × Bool
  | _, keyAllowed, [], p => (⟨[], p⟩, keyAllowed)
  | _, keyAllowed, '\r' :: '\n' :: s, p =>
    skipToToken inBrackets false (keyAllowed || !inBrackets) s p.nextLine
  | inComment, keyAllowed, c :: s, p =>
    if isBreak c then
      skipToToken inBrackets false (keyAllowed || !inBrackets) s p.nextLine
    else if inComment || c = '#' then
      skipToToken inBrackets true keyAllowed s (p.past c)
    -- A byte order mark may stand at the start of every line.
    else if c = ' ' || (c = '\t' && (inBrackets || !keyAllowed))
        || (c = byteOrderMark && p.column = 0) then
      skipToToken inBrackets false keyAllowed s (p.past c)
    else
      (⟨c :: s, p⟩, keyAllowed)

/-! ## Blank space inside scalars -/

/-- The blanks and line ends since the last character of a scalar that is no such thing. -/
structure Gap where
  /-- The blanks before the first line end, the latest first. -/
  blanks : List Char := []
  /-- There was a line end. -/
  broken : Bool := false
  /-- What the first line end stands for; nothing when it is escaped. -/
  first : Option Char := none
  /-- What the further line ends stand for, the latest first. -/
  more : List Char := []
  deriving DecidableEq, Repr

namespace Gap

def none : Gap := {}

def escaped : Gap := { broken := true }

def isEmpty (g : Gap) : Bool :=
  g.blanks.isEmpty && !g.broken

/-- Adds a blank; those after a line end are indentation. -/
def pushBlank (g : Gap) (c : Char) : Gap :=
  if g.broken then g else { g with blanks := c :: g.blanks }

def pushBreak (g : Gap) (c : Char) : Gap :=
  if g.broken then { g with more := breakText c :: g.more }
  else { broken := true, first := some (breakText c) }

/-- The text that the gap stands for, the last character first. A single line feed is folded into
a space, and of several the first is dropped. -/
def text (g : Gap) : List Char :=
  if g.broken then
    if g.first = some '\n' then
      if g.more.isEmpty then [' '] else g.more
    else
      g.more ++ g.first.toList
  else
    g.blanks

end Gap

end UnitGraph.Yaml
