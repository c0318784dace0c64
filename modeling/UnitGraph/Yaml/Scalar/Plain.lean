import UnitGraph.Yaml.Cursor

/-! # Plain scalars

A plain scalar runs over several lines as long as they are indented far enough, up to a comment, a
document mark, or an indicator that means something where it stands. -/

namespace UnitGraph.Yaml.Plain

structure Result where
  text : List Char
  next : Cursor
  broken : Bool

/-- A colon in brackets must not stand right before one of these. -/
def clashes (s : List Char) : Bool :=
  match s with
  | ':' :: c :: _ => isFlowIndicator c || c = '?'
  | _ => false

/-- An indicator that ends plain text: a colon before a gap, and brackets and commas in brackets. -/
def ends (inBrackets : Bool) (s : List Char) : Bool :=
  match s with
  | ':' :: s => atGap s
  | c :: _ => inBrackets && isFlowIndicator c
  | [] => true

/-- The text after a gap does not belong to the scalar: its line is indented too little, or starts
with a document mark, or it is a comment. -/
def leaves (inBrackets : Bool) (margin : Nat) (g : Gap) (s : List Char) (p : Place) : Bool :=
  (!g.isEmpty && !inBrackets && p.column < margin)
    || (p.column = 0 && atDocumentMark s)
    || s.head? = some '#'

/-- Reads on: `acc` is the text so far, the last character first, and `g` the gap after it. -/
def scan (inBrackets : Bool) (margin : Nat) (acc : List Char) (g : Gap) :
    List Char → Place → Option Result
  | [], p => some ⟨acc.reverse, ⟨[], p⟩, g.broken⟩
  | '\r' :: '\n' :: s, p => scan inBrackets margin acc (g.pushBreak '\n') s p.nextLine
  | c :: s, p =>
    if isBlank c then
      -- Tabs must not stand in for indentation.
      if g.broken && p.column < margin && c = '\t' then none
      else scan inBrackets margin acc (g.pushBlank c) s (p.past c)
    else if isBreak c then
      scan inBrackets margin acc (g.pushBreak c) s p.nextLine
    -- Only after a gap, or at the very start, can the text be left this way.
    else if (acc.isEmpty || !g.isEmpty) && leaves inBrackets margin g (c :: s) p then
      some ⟨acc.reverse, ⟨c :: s, p⟩, g.broken⟩
    else if inBrackets && clashes (c :: s) then
      none
    else if ends inBrackets (c :: s) then
      some ⟨acc.reverse, ⟨c :: s, p⟩, g.broken⟩
    else
      scan inBrackets margin (c :: (g.text ++ acc)) .none s (p.past c)

def read (inBrackets : Bool) (margin : Nat) (c : Cursor) : Option Result :=
  scan inBrackets margin [] .none c.rest c.place

end UnitGraph.Yaml.Plain
