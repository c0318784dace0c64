import UnitGraph.Count
import UnitGraph.Json.Quoted

/-! # Numbers

An integer that fits a count is read exactly; every other number is read as a double. The double
is found from the leading digits of the literal, as many as fit a word, scaled by a power of ten,
so it may differ from the nearest double in its last places. -/

namespace UnitGraph.Json

inductive Number
  | natural (n : Count)
  | real (x : Float)

namespace Number

structure Literal where
  negative : Bool
  whole : List Char
  /-- The digits after the point; none without a point. -/
  fraction : List Char
  exponent : Int
  /-- There is neither a point nor an exponent. -/
  isInteger : Bool
  deriving DecidableEq, Repr

def someDigits (s : List Char) : Except Fault (List Char × List Char) :=
  match s.span Char.isDigit with
  | ([], []) => .error .truncated
  | ([], _) => .error .malformed
  | (ds, rest) => .ok (ds, rest)

/-- The digits before the point. A zero stands alone. -/
def whole (s : List Char) : Except Fault (List Char × List Char) := do
  let (ds, rest) ← someDigits s
  match ds with
  | '0' :: _ :: _ => throw .malformed
  | _ => return (ds, rest)

def fraction (s : List Char) : Except Fault (Option (List Char) × List Char) :=
  match s with
  | '.' :: s => (someDigits s).map fun (ds, rest) => (some ds, rest)
  | s => .ok (none, s)

def digitsValue (ds : List Char) : Nat :=
  (Text.Numeral.read? 10 ds).getD 0

def exponent (s : List Char) : Except Fault (Option Int × List Char) :=
  let signed (sign : Int) (s : List Char) := (someDigits s).map fun (ds, rest) =>
    (some (sign * digitsValue ds), rest)
  match s with
  | 'e' :: '+' :: s | 'E' :: '+' :: s => signed 1 s
  | 'e' :: '-' :: s | 'E' :: '-' :: s => signed (-1) s
  | 'e' :: s | 'E' :: s => signed 1 s
  | s => .ok (none, s)

def literal (s : List Char) : Except Fault (Literal × List Char) := do
  let (negative, s) := match s with
    | '-' :: s => (true, s)
    | s => (false, s)
  let (whole, s) ← whole s
  let (fraction, s) ← fraction s
  let (exponent, s) ← exponent s
  return (⟨negative, whole, fraction.getD [], exponent.getD 0,
    fraction.isNone && exponent.isNone⟩, s)

/-- Extends a word by digits while it stays a word; the digits that are left over are returned. -/
def accumulate (n : Nat) : List Char → Nat × List Char
  | [] => (n, [])
  | d :: ds =>
    let m := 10 * n + digitsValue [d]
    if m < Count.bound then accumulate m ds else (n, d :: ds)

def pow10 (k : Nat) : Float :=
  Float.ofScientific 1 false k

/-- Divides by a power of ten, by at most `10 ^ 308` at a time. -/
def scaleDown (x : Float) (k : Nat) : Float :=
  if k ≤ 308 then x / pow10 k
  else if x == 0 then x
  else scaleDown (x / pow10 308) (k - 308)
termination_by k

/-- A word times a power of ten; a product beyond the doubles cannot be read. -/
def scale (n : Count) (exponent : Int) : Except Fault Float :=
  let x := n.toFloat
  if exponent < 0 then
    .ok (scaleDown x exponent.natAbs)
  -- `10 ^ 308` is the largest power of ten among the doubles.
  else if 308 < exponent then
    if x == 0 then .ok x else .error .malformed
  else
    let y := x * pow10 exponent.toNat
    if y.isInf then .error .malformed else .ok y

def ofLiteral (l : Literal) : Except Fault Number := do
  let (n, left) := accumulate 0 l.whole
  let signed (x : Float) : Float := if l.negative then -x else x
  -- A negative literal is a double even without a point: no natural number can come of it.
  if l.isInteger ∧ left = [] then
    let n := Count.clamp n
    return if l.negative then .real (signed n.toFloat) else .natural n
  else
    let (m, ignored) := accumulate n l.fraction
    -- Digits left over before the point scale the word up, digits used after it scale it down.
    let shift : Int := left.length - (l.fraction.length - ignored.length)
    return .real (signed (← scale (Count.clamp m) (shift + l.exponent)))

def toFloat : Number → Float
  | .natural n => n.toFloat
  | .real x => x

end Number

end UnitGraph.Json
