import UnitGraph.Decimal.Layout
import UnitGraph.Text
import UnitGraph.Yaml.Scalar.Block
import UnitGraph.Yaml.Scalar.Style

/-! # Writing scalars

Every text is written in its style, and no line is ever folded. Lines after the first one are
indented where the style keeps line ends as they are. -/

namespace UnitGraph.Yaml

/-- Numbers are written positionally while that takes few zeros, and always have a point or an
exponent, so that they read back as floats. -/
def floatLayout : Decimal.Layout where
  tie := .even
  positional point := -5 < point && point ≤ 16
  wholeEnd := ".0"
  infinity := ".inf"
  nan := ".nan"

namespace Printer

def indented (margin : Nat) : (lineStart : Bool) → List Char → List Char
  | _, [] => []
  | lineStart, c :: s =>
    if isBreak c then
      c :: indented margin true s
    else
      (if lineStart then List.replicate margin ' ' else []) ++ c :: indented margin false s

/-! ## Quotes -/

def doubled (s : List Char) : List Char :=
  s.flatMap fun c => if c = '\'' then ['\'', '\''] else [c]

/-- A text in single quotes. Of line ends it holds separators only, which stand for themselves. -/
def single (margin : Nat) (s : List Char) : List Char :=
  '\'' :: indented margin false (doubled s ++ ['\''])

def escapeLetter? (c : Char) : Option Char :=
  match c.toNat with
  | 0x00 => some '0'
  | 0x07 => some 'a'
  | 0x08 => some 'b'
  | 0x09 => some 't'
  | 0x0A => some 'n'
  | 0x0B => some 'v'
  | 0x0C => some 'f'
  | 0x0D => some 'r'
  | 0x1B => some 'e'
  | 0x22 => some '"'
  | 0x5C => some '\\'
  | 0x85 => some 'N'
  | 0x2028 => some 'L'
  | 0x2029 => some 'P'
  | _ => none

/-- The code point of a character in as few hexadecimal digits as there is an escape for. -/
def escapedCode (c : Char) : List Char :=
  let n := c.toNat
  let (letter, width) := if n ≤ 0xFF then ('x', 2) else if n ≤ 0xFFFF then ('u', 4) else ('U', 8)
  letter :: (Text.Numeral.padded 16 width n).map Char.toUpper

def escaped (c : Char) : List Char :=
  match escapeLetter? c with
  | some letter => ['\\', letter]
  | none => if Style.isPrintable c then [c] else '\\' :: escapedCode c

def double (s : List Char) : List Char :=
  '"' :: s.flatMap escaped ++ ['"']

/-! ## Literal scalars -/

def chompingSign : Block.Chomping → List Char
  | .strip => ['-']
  | .clip => []
  | .keep => ['+']

def chomping (s : List Char) : Block.Chomping :=
  match s.reverse with
  | [] => .strip
  | [b] => if isBreak b then .keep else .strip
  | b :: c :: _ => if !isBreak b then .strip else if isBreak c then .keep else .clip

/-- A text on lines of its own, with the end of the last one. The indentation is told when the text
starts with a space or a line end, from which it could not be seen. -/
def literal (margin : Nat) (s : List Char) : List Char :=
  let increment := if s.head?.any (fun c => c = ' ' || isBreak c) then ['2'] else []
  let lineEnd := if s.getLast?.any isBreak then [] else ['\n']
  '|' :: increment ++ chompingSign (chomping s) ++ '\n' :: indented margin true s ++ lineEnd

/-- A text, with the end of its last line. Its further lines are indented by `margin`, which is two
more than what is around it. -/
def text (margin : Nat) (s : List Char) : List Char :=
  match Style.ofText s with
  | .plain => s ++ ['\n']
  | .singleQuoted => single margin s ++ ['\n']
  | .doubleQuoted => double s ++ ['\n']
  | .literal => literal margin s

end Printer

end UnitGraph.Yaml
