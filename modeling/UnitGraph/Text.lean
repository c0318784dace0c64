import Std.Data.ExtHashMap

/-! # Texts and numbers

Trimming goes by the Unicode property White_Space, so a no-break space or an ideographic space
around a number is as blank as a tab. Natural numbers are written and read in any radix up to
sixteen. Letters stand for the digits from ten on: both cases are read, the lower case is written. -/

namespace UnitGraph

/-! ## Keys

Hash maps are keyed by texts and by numbers. Look-ups go by these instances, whatever other ones are
in scope. -/

instance equivBEq_text : EquivBEq String := inferInstance

instance lawfulHashable_text : LawfulHashable String := inferInstance

instance equivBEq_number : EquivBEq Nat := inferInstance

instance lawfulHashable_number : LawfulHashable Nat := inferInstance

namespace Text

/-! ## Blanks -/

/-- The code points with the property White_Space, as closed ranges in increasing order. -/
def blankRanges : List (Nat × Nat) :=
  [(0x09, 0x0D), (0x20, 0x20), (0x85, 0x85), (0xA0, 0xA0), (0x1680, 0x1680), (0x2000, 0x200A),
   (0x2028, 0x2029), (0x202F, 0x202F), (0x205F, 0x205F), (0x3000, 0x3000)]

def isBlank (c : Char) : Bool :=
  blankRanges.any fun (lo, hi) => lo ≤ c.toNat && c.toNat ≤ hi

def trimStart (s : List Char) : List Char :=
  s.dropWhile isBlank

def trim (s : List Char) : List Char :=
  (trimStart (trimStart s).reverse).reverse

def IsBlankText (s : String) : Prop :=
  trim s.toList = []

instance (s : String) : Decidable (IsBlankText s) :=
  inferInstanceAs (Decidable (trim s.toList = []))

/-! ## Positional numerals -/

namespace Numeral

/-- The numeral of `n`, most significant digit first, without superfluous zeros. -/
def digits (radix n : Nat) : List Char :=
  if n < radix ∨ radix < 2 then
    [Nat.digitChar n]
  else
    digits radix (n / radix) ++ [Nat.digitChar (n % radix)]
termination_by n
decreasing_by
  have : 2 ≤ radix ∧ radix ≤ n := by omega
  exact Nat.div_lt_self (by omega) (by omega)

def decimal (n : Nat) : String :=
  String.ofList (digits 10 n)

def padded (radix width n : Nat) : List Char :=
  let ds := digits radix n
  List.replicate (width - ds.length) '0' ++ ds

def digitValue? (radix : Nat) (c : Char) : Option Nat :=
  let v :=
    if c.isDigit then some (c.toNat - '0'.toNat)
    else if 'a' ≤ c ∧ c ≤ 'z' then some (c.toNat - 'a'.toNat + 10)
    else if 'A' ≤ c ∧ c ≤ 'Z' then some (c.toNat - 'A'.toNat + 10)
    else none
  v.filter (· < radix)

def extend? (radix : Nat) : Nat → List Char → Option Nat
  | n, [] => some n
  | n, c :: s => do extend? radix (radix * n + (← digitValue? radix c)) s

/-- Reads one or more digits; leading zeros are harmless. -/
def read? (radix : Nat) (s : List Char) : Option Nat :=
  if s.isEmpty then none else extend? radix 0 s

end Numeral

end Text

end UnitGraph
