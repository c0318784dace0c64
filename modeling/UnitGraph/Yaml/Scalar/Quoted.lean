import UnitGraph.Text
import UnitGraph.Yaml.Cursor

/-! # Quoted scalars

Between single quotes only the quote itself is written specially, twice. Between double quotes
there are escapes. In both, line ends are folded, and no document mark may start a line. -/

namespace UnitGraph.Yaml.Quoted

inductive Escape
  | char (c : Char)
  /-- The code point follows in so many hexadecimal digits. -/
  | code (digits : Nat)
  deriving DecidableEq, Repr

def escape? : Char → Option Escape
  | '0' => some (.char '\x00')
  | 'a' => some (.char '\x07')
  | 'b' => some (.char '\x08')
  | 't' | '\t' => some (.char '\t')
  | 'n' => some (.char '\n')
  | 'v' => some (.char '\x0b')
  | 'f' => some (.char '\x0c')
  | 'r' => some (.char '\r')
  | 'e' => some (.char '\x1b')
  | ' ' => some (.char ' ')
  | '"' => some (.char '"')
  | '/' => some (.char '/')
  | '\\' => some (.char '\\')
  | 'N' => some (.char (Char.ofNat 0x85))
  | '_' => some (.char (Char.ofNat 0xA0))
  | 'L' => some (.char (Char.ofNat 0x2028))
  | 'P' => some (.char (Char.ofNat 0x2029))
  | 'x' => some (.code 2)
  | 'u' => some (.code 4)
  | 'U' => some (.code 8)
  | _ => none

def char? (n : Nat) : Option Char :=
  if n.isValidChar then some (Char.ofNat n) else none

/-- The digits of a code point that are still to come, and the value of those before them. -/
structure Code where
  left : Nat
  value : Nat

/-- Reads on: `acc` is the text so far, the last character first, `g` the gap after it, and `code`
a code point under way. -/
def scan (single : Bool) (acc : List Char) (g : Gap) (code : Option Code) :
    List Char → Place → Option (List Char × Cursor)
  | [], _ => none
  | c :: s, p =>
    match code with
    | some code =>
      match Text.Numeral.digitValue? 16 c with
      | none => none
      | some d =>
        let value := 16 * code.value + d
        if code.left ≤ 1 then
          match char? value with
          | none => none
          | some c => scan single (c :: acc) g none s p.advance
        else
          scan single acc g (some ⟨code.left - 1, value⟩) s p.advance
    | none =>
      if isBlank c then
        scan single acc (g.pushBlank c) none s p.advance
      else if isBreak c then
        match c, s with
        | '\r', '\n' :: s => scan single acc (g.pushBreak '\n') none s p.nextLine
        | c, s => scan single acc (g.pushBreak c) none s p.nextLine
      else if p.column = 0 && atDocumentMark (c :: s) then
        none
      else
        let acc := g.text ++ acc
        if single then
          match c, s with
          | '\'', '\'' :: s => scan single ('\'' :: acc) .none none s (p.advance 2)
          | '\'', s => some (acc.reverse, ⟨s, p.advance⟩)
          | c, s => scan single (c :: acc) .none none s (p.past c)
        else
          match c, s with
          | '"', s => some (acc.reverse, ⟨s, p.advance⟩)
          -- An escaped line end joins the lines without a space.
          | '\\', '\r' :: '\n' :: s => scan single acc .escaped none s p.nextLine
          | '\\', e :: s =>
            if isBreak e then
              scan single acc .escaped none s p.nextLine
            else
              match escape? e with
              | none => none
              | some (.char c) => scan single (c :: acc) .none none s (p.advance 2)
              | some (.code digits) =>
                scan single acc .none (some ⟨digits, 0⟩) s (p.advance 2)
          | '\\', [] => none
          | c, s => scan single (c :: acc) .none none s (p.past c)

def read (single : Bool) (c : Cursor) : Option (List Char × Cursor) :=
  scan single [] .none none (c.rest.drop 1) c.place.advance

end UnitGraph.Yaml.Quoted
