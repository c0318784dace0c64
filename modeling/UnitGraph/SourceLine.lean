import UnitGraph.Text

/-! # Source lines

A position in the instrumented sources is a file number and a line number, written `file:line`.
Loop headers, start lines of units and both ends of a dependence are positions of this kind, and
measured iteration counts are keyed by them. -/

namespace UnitGraph

/-! ## Sorted lists

Lines, and the numbers of nodes, are listed in order and once each. -/

section Sorted

variable {α : Type} [DecidableEq α]

/-- A list without those entries that are followed by their equals. -/
def dropRepeats (xs : List α) : List α :=
  xs.foldr (fun x rest => if rest.head? = some x then rest else x :: rest) []

/-- The entries of a list in an order, each once. -/
def sortDistinct (le : α → α → Bool) (xs : List α) : List α :=
  dropRepeats (xs.mergeSort le)

end Sorted

/-! ## Positions -/

structure SourceLine where
  file : UInt32
  line : UInt32
  deriving DecidableEq, Hashable, Inhabited, Repr

namespace SourceLine

instance : Ord SourceLine where
  compare := compareLex (compareOn SourceLine.file) (compareOn SourceLine.line)

instance : Std.TransOrd SourceLine :=
  inferInstanceAs (Std.TransCmp (compareLex (compareOn SourceLine.file)
    (compareOn SourceLine.line)))

instance : Std.LawfulEqOrd SourceLine where
  compare_self := Std.ReflCmp.compare_self
  eq_of_compare {x y} h := by
    obtain ⟨f, l⟩ := x
    obtain ⟨f', l'⟩ := y
    have ⟨hf, hl⟩ := Ordering.then_eq_eq.1 h
    have ef : f = f' := Std.LawfulEqCmp.eq_of_compare hf
    have el : l = l' := Std.LawfulEqCmp.eq_of_compare hl
    rw [ef, el]

def text (x : SourceLine) : String :=
  Text.Numeral.decimal x.file.toNat ++ ":" ++ Text.Numeral.decimal x.line.toNat

structure Malformed where
  text : String
  deriving DecidableEq, Repr

def Malformed.message (m : Malformed) : String :=
  s!"Invalid source line '{m.text}', expected 'file:line' or 'line'"

/-- A number: an optional plus sign and decimal digits of a value below 2³². -/
def number? (s : List Char) : Option UInt32 := do
  let digits := match s with
    | '+' :: r => r
    | s => s
  let n ← Text.Numeral.read? 10 digits
  if n < UInt32.size then some (UInt32.ofNat n) else none

/-- Reads the text between blanks: `file:line` with blanks around either number, or a bare line
of file 0. -/
def ofChars? (s : List Char) : Option SourceLine :=
  let trimmed := Text.trim s
  match trimmed.span (· ≠ ':') with
  | (file, _ :: line) => do
    return ⟨← number? (Text.trim file), ← number? (Text.trim line)⟩
  | (line, []) => (number? line).map (⟨0, ·⟩)

/-- Reads a source line; a text that is none is handed back untrimmed. -/
def parse (s : String) : Except Malformed SourceLine :=
  match ofChars? s.toList with
  | some x => .ok x
  | none => .error ⟨s⟩

def sortDistinct (xs : List SourceLine) : List SourceLine :=
  UnitGraph.sortDistinct (fun a b => (compare a b).isLE) xs

end SourceLine

end UnitGraph
