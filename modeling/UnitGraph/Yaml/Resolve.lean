import UnitGraph.Text

/-! # What plain scalars stand for

A plain scalar is null, a boolean, an integer or a float if it is written like one, and text
otherwise. A decimal number with a superfluous zero in front is text. -/

namespace UnitGraph.Yaml

inductive Scalar
  | null
  | bool (value : Bool)
  | integer (value : Int)
  | float (value : Float)
  | text (value : List Char)

namespace Scalar

def isNull (s : List Char) : Bool :=
  ["null", "Null", "NULL", "~"].any (·.toList = s)

def bool? (s : List Char) : Option Bool :=
  if ["true", "True", "TRUE"].any (·.toList = s) then some true
  else if ["false", "False", "FALSE"].any (·.toList = s) then some false
  else none

/-- Two or more digits of which the first is a zero, after an optional sign. -/
def isZeroPadded (s : List Char) : Bool :=
  let digits := match s with
    | '+' :: r | '-' :: r => r
    | s => s
  match digits with
  | '0' :: d :: r => (d :: r).all Char.isDigit
  | _ => false

/-! ## Integers -/

def magnitude? (s : List Char) : Option Nat :=
  match s with
  | '0' :: 'x' :: r => Text.Numeral.read? 16 r
  | '0' :: 'o' :: r => Text.Numeral.read? 8 r
  | '0' :: 'b' :: r => Text.Numeral.read? 2 r
  | s => if isZeroPadded s then none else Text.Numeral.read? 10 s

/-- An integer that takes at most 128 bits, with a sign if it has one. -/
def integer? (s : List Char) : Option Int :=
  match s with
  | '-' :: r => do
    let n ← magnitude? r
    -- Negative integers are signed, all others unsigned.
    if n ≤ Nat.pow 2 127 then some (-n) else none
  | '+' :: r => do
    let n ← magnitude? r
    if n < Nat.pow 2 128 then some n else none
  | s => do
    let n ← magnitude? s
    if n < Nat.pow 2 128 then some n else none

/-! ## Floats -/

/-- Digits with an optional point among them, of which there has to be one at least: those before
and those after the point. -/
def decimalDigits? (s : List Char) : Option (List Char × List Char × List Char) :=
  let (whole, s) := s.span Char.isDigit
  let (fraction, s) := match s with
    | '.' :: r => r.span Char.isDigit
    | s => ([], s)
  if whole.isEmpty && fraction.isEmpty then none else some (whole, fraction, s)

def exponent? (s : List Char) : Option Int :=
  let digits (r : List Char) : Option Int := (Text.Numeral.read? 10 r).map Int.ofNat
  match s with
  | [] => some 0
  | e :: r =>
    if e = 'e' || e = 'E' then
      match r with
      | '+' :: r => digits r
      | '-' :: r => (digits r).map (-·)
      | r => digits r
    else
      none

def scaled (m : Nat) (e : Int) : Float :=
  Float.ofScientific m (e < 0) e.natAbs

def decimal? (s : List Char) : Option Float := do
  let (whole, fraction, r) ← decimalDigits? s
  let e ← exponent? r
  let m ← Text.Numeral.read? 10 (whole ++ fraction)
  return scaled m (e - fraction.length)

def finite? (s : List Char) : Option Float := do
  let x ← match s with
    | '+' :: r => decimal? r
    | '-' :: r => (decimal? r).map fun x => -x
    | s => decimal? s
  if x.isFinite then some x else none

def float? (s : List Char) : Option Float :=
  if [".inf", ".Inf", ".INF", "+.inf", "+.Inf", "+.INF"].any (·.toList = s) then
    some (1.0 / 0.0)
  else if ["-.inf", "-.Inf", "-.INF"].any (·.toList = s) then
    some (-1.0 / 0.0)
  else if [".nan", ".NaN", ".NAN"].any (·.toList = s) then
    some (0.0 / 0.0)
  else
    finite? s

def resolve (s : List Char) : Scalar :=
  if s.isEmpty || isNull s then .null
  else match bool? s with
  | some b => .bool b
  | none =>
    match integer? s with
    | some n => .integer n
    | none =>
      -- A padded number stays text although its digits would make a double.
      if isZeroPadded s then .text s
      else match float? s with
      | some x => .float x
      | none => .text s

end Scalar

end UnitGraph.Yaml
