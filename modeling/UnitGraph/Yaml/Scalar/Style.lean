import UnitGraph.Yaml.Character
import UnitGraph.Yaml.Resolve

/-! # Styles of scalars

A text with line feeds is to be literal. Any other one is to be plain, unless a plain scalar would
stand for something else. Not every style holds every text: what cannot be plain is put in single
quotes, and double quotes hold what no other style does. -/

namespace UnitGraph.Yaml

inductive Style
  | plain
  | singleQuoted
  | doubleQuoted
  | literal
  deriving DecidableEq, Repr

namespace Style

/-- The characters that every style writes as they are: line feeds, and all that is neither a
control character nor a byte order mark. -/
def isPrintable (c : Char) : Bool :=
  let n := c.toNat
  n = 0x0A || (0x20 ≤ n && n ≤ 0x7E) || (0xA0 ≤ n && n ≤ 0xFFFD && n ≠ 0xFEFF) || 0x10000 ≤ n

def hasPair (p : Char → Char → Bool) (s : List Char) : Bool :=
  (s.zip s.tail).any fun (a, b) => p a b

/-- Only double quotes hold spaces at the end of a line and characters that are not printable. -/
def needsEscapes (s : List Char) : Bool :=
  !s.all isPrintable || hasPair (fun a b => a = ' ' && isBreak b) s

def hasKeyMark : List Char → Bool
  | [] => false
  | c :: s => (c = ':' && atGap s) || hasKeyMark s

def startsWithMark (s : List Char) : Bool :=
  ['-', '-', '-'].isPrefixOf s || ['.', '.', '.'].isPrefixOf s ||
    match s with
    | [] => false
    | c :: s => isIndicator c || ((c = '-' || c = '?') && atGap s)

def plainHolds (s : List Char) : Bool :=
  !needsEscapes s && !s.any isBreak && s.head? ≠ some ' ' && s.getLast? ≠ some ' '
    && !startsWithMark s && !hasKeyMark s && !hasPair (fun a b => isBlank a && b = '#') s

def singleHolds (s : List Char) : Bool :=
  !needsEscapes s && !hasPair (fun a b => isBreak a && b = ' ') s

def literalHolds (s : List Char) : Bool :=
  !needsEscapes s && s.getLast? ≠ some ' '

/-- A plain scalar stands for a text, and is not even close to a number. -/
def readsAsText (s : List Char) : Bool :=
  match Scalar.resolve s with
  | .text _ => !Scalar.isZeroPadded s
  | _ => false

def ofText (s : List Char) : Style :=
  if s.contains '\n' then
    if literalHolds s then literal else doubleQuoted
  else if readsAsText s && plainHolds s then plain
  else if singleHolds s then singleQuoted
  else doubleQuoted

end Style

end UnitGraph.Yaml
