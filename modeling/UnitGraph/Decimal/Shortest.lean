/-! # Shortest decimals

Among the decimals that round to a given double, the shortest ones lie on the coarsest power-of-ten
grid that meets the interval of reals rounding to it, and of those the one nearest to the double is
taken. Everything is computed exactly in natural numbers. -/

namespace UnitGraph.Decimal

/-- The number `significand · 10 ^ exponent`. -/
structure Scaled where
  significand : Nat
  exponent : Int
  deriving DecidableEq, Repr

/-- The number `mantissa · 2 ^ exponent`, with the mantissa of a double. -/
structure Binary where
  mantissa : Nat
  exponent : Int
  deriving DecidableEq, Repr

/-- The first digit of the mantissas that have all their digits. It is not stored. -/
def hiddenBit : Nat := Nat.pow 2 52

def signBit : Nat := Nat.pow 2 63

def exponentBits (bits : UInt64) : Nat :=
  bits.toNat % signBit / hiddenBit

def Binary.ofBits (bits : UInt64) : Binary :=
  let biased := exponentBits bits
  let fraction := bits.toNat % hiddenBit
  if biased = 0 then ⟨fraction, -1074⟩ else ⟨fraction + hiddenBit, (biased : Int) - 1075⟩

/-- The end of the rounding interval below a double, in quarters of its last place. The gap to the
next double below a power of two is half as wide. -/
def Binary.low (x : Binary) : Nat :=
  if x.mantissa = hiddenBit ∧ -1074 < x.exponent then 4 * x.mantissa - 1 else 4 * x.mantissa - 2

def Binary.high (x : Binary) : Nat :=
  4 * x.mantissa + 2

inductive Tie
  /-- To the one with an even last digit. -/
  | even
  /-- To the larger one. -/
  | up
  deriving DecidableEq, Repr

/-- The factors `(a, b)` for which `v` quarters of the last place of `x` compare with
`c · 10 ^ k` as `v · a` with `c · b`. -/
def Binary.factors (x : Binary) (k : Int) : Nat × Nat :=
  let q := x.exponent - 2
  (Nat.pow 2 q.toNat * Nat.pow 10 (-k).toNat, Nat.pow 10 k.toNat * Nat.pow 2 (-q).toNat)

/-- The decimal `c · 10 ^ k` rounds to `x`; the ends of the interval do so when the mantissa is
even. -/
def Binary.admits (x : Binary) (k : Int) (c : Nat) : Bool :=
  let (a, b) := x.factors k
  if x.mantissa % 2 = 0 then
    x.low * a ≤ c * b && c * b ≤ x.high * a
  else
    x.low * a < c * b && c * b < x.high * a

/-- The multiple of `10 ^ k` next to `x` that rounds to `x`, the nearer one if both do. -/
def Binary.onGrid? (x : Binary) (tie : Tie) (k : Int) : Option Nat :=
  let (a, b) := x.factors k
  let value := 4 * x.mantissa * a
  -- The two candidates are the neighbours of the double on the grid.
  let c := value / b
  match x.admits k c, x.admits k (c + 1) with
  | true, false => some c
  | false, true => some (c + 1)
  | false, false => none
  | true, true =>
    -- Both distances are in the same units, so the nearer candidate is found exactly.
    let below := value - c * b
    let above := (c + 1) * b - value
    if below < above then some c
    else if above < below then some (c + 1)
    else match tie with
      | .up => some (c + 1)
      | .even => some (if c % 2 = 0 then c else c + 1)

def Binary.search (x : Binary) (tie : Tie) : (steps : Nat) → (k : Int) → Scaled
  | 0, k => ⟨0, k⟩
  | steps + 1, k =>
    match x.onGrid? tie k with
    | some c => ⟨c, k⟩
    | none => x.search tie steps (k - 1)

/-- The shortest decimal that rounds to a positive double. No double exceeds `10 ^ 309`, and each
one has a decimal of 17 digits, so the grids run out only after a hit. -/
def Binary.shortest (x : Binary) (tie : Tie) : Scaled :=
  x.search tie 660 309

end UnitGraph.Decimal
