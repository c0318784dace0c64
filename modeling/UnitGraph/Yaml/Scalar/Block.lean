import UnitGraph.Yaml.Cursor

/-! # Block scalars

A block scalar consists of indented lines. Literal ones keep their line ends, folded ones join
lines that are not indented further. The header tells how deep the lines are indented and what
becomes of the line ends at the end. -/

namespace UnitGraph.Yaml.Block

inductive Chomping
  /-- None is kept. -/
  | strip
  /-- One is kept. -/
  | clip
  /-- All are kept. -/
  | keep
  deriving DecidableEq, Repr

structure Header where
  chomping : Chomping := .clip
  /-- By how much the lines are indented further than what is around them. -/
  increment : Option Nat := none
  deriving DecidableEq, Repr

def chomping? : Char → Option Chomping
  | '+' => some .keep
  | '-' => some .strip
  | _ => none

def increment (c : Cursor) : Option (Option Nat × Cursor) :=
  match c.rest with
  | d :: _ =>
    if d = '0' then none
    else if d.isDigit then some (some (d.toNat - '0'.toNat), c.advance)
    else some (none, c)
  | [] => some (none, c)

def sign (c : Cursor) : Option Chomping × Cursor :=
  match c.rest.head?.bind chomping? with
  | some chomping => (some chomping, c.advance)
  | none => (none, c)

/-- Reads a header: a sign and a digit in either order, each of which may be missing. -/
def header (c : Cursor) : Option (Header × Cursor) := do
  let (before, c) := sign c
  let (increment, c) ← increment c
  let (after, c) := if before.isNone && increment.isSome then sign c else (none, c)
  return (⟨(before.or after).getD .clip, increment⟩, c)

structure State where
  /-- The indentation of the lines, once it is known. -/
  indent : Option Nat
  /-- The deepest indentation seen so far, while it is not known. -/
  deepest : Nat := 0
  /-- The text so far, the last character first. -/
  acc : List Char := []
  /-- What the end of the last line stands for. -/
  lineEnd : Option Char := none
  /-- What the ends of the empty lines after it stand for, the latest first. -/
  emptyEnds : List Char := []
  indented : Bool := false
  inLine : Bool := false

def State.joined (literal : Bool) (st : State) (c : Char) : List Char :=
  if !literal && st.lineEnd = some '\n' && !st.indented && !isBlank c then
    st.emptyEnds ++ (if st.emptyEnds.isEmpty then [' '] else []) ++ st.acc
  else
    st.emptyEnds ++ st.lineEnd.toList ++ st.acc

def State.chomped (chomping : Chomping) (st : State) : List Char :=
  (match chomping with
  | .strip => st.acc
  | .clip => st.lineEnd.toList ++ st.acc
  | .keep => st.emptyEnds ++ st.lineEnd.toList ++ st.acc).reverse

def State.pushBreak (st : State) (b : Char) : State :=
  if st.inLine then
    { st with inLine := false, lineEnd := some (breakText b), emptyEnds := [] }
  else
    { st with emptyEnds := breakText b :: st.emptyEnds }

/-- Reads on. The lines have to be indented by `margin` at least. -/
def scan (literal : Bool) (chomping : Chomping) (margin : Nat) (st : State) :
    List Char → Place → Option (List Char × Cursor)
  | [], p =>
    -- A last line without end contributes no line end, whatever the chomping.
    let st := if st.inLine then { st with lineEnd := none, emptyEnds := [] } else st
    some (st.chomped chomping, ⟨[], p⟩)
  | c :: s, p =>
    let indenting := st.indent.all (p.column < ·)
    if st.inLine then
      match c, s with
      | '\r', '\n' :: s => scan literal chomping margin (st.pushBreak '\n') s p.nextLine
      | c, s =>
        if isBreak c then scan literal chomping margin (st.pushBreak c) s p.nextLine
        else scan literal chomping margin { st with acc := c :: st.acc } s (p.past c)
    else if c = ' ' && indenting then
      scan literal chomping margin st s p.advance
    else
      -- Blanks of empty lines count for the indentation as long as it is not known.
      let st := { st with deepest := max st.deepest p.column }
      if c = '\t' && indenting then none
      else
        match c, s with
        | '\r', '\n' :: s => scan literal chomping margin (st.pushBreak '\n') s p.nextLine
        | c, s =>
          if isBreak c then
            scan literal chomping margin (st.pushBreak c) s p.nextLine
          else
            -- Where the header says nothing, the deepest line so far settles the indentation.
            let indent := st.indent.getD (max (max st.deepest margin) 1)
            if p.column = indent then
              scan literal chomping margin
                { st with
                  indent := some indent, acc := c :: st.joined literal c, lineEnd := none
                  emptyEnds := [], indented := isBlank c, inLine := true }
                s (p.past c)
            else
              some (st.chomped chomping, ⟨c :: s, p⟩)

def read (literal : Bool) (margin : Nat) (c : Cursor) : Option (List Char × Cursor) := do
  let (header, c) ← header c.advance
  let c ← c.endLine
  let indent := header.increment.map (margin - 1 + ·)
  scan literal header.chomping margin { indent } c.rest c.place

end UnitGraph.Yaml.Block
