import UnitGraph.Decimal.Shortest
import UnitGraph.Text

/-! # Writing doubles

A double is written with its shortest digits. What is left to decide is a layout: which numbers are
written positionally, and how whole numbers, infinities and the absence of a number look. -/

namespace UnitGraph.Decimal

structure Layout where
  /-- Which of two equally near shortest decimals is taken. -/
  tie : Tie
  /-- The positions of the decimal point, counted from the first digit, that are written without
  an exponent. -/
  positional : Int → Bool
  /-- What follows a whole number written positionally. -/
  wholeEnd : String
  infinity : String
  nan : String

/-- The digits with the decimal point after the first `point` of them, and zeros as needed. -/
def Layout.plain (l : Layout) (ds : List Char) (point : Int) : List Char :=
  if point ≤ 0 then
    ['0', '.'] ++ List.replicate (-point).toNat '0' ++ ds
  else if point < ds.length then
    ds.take point.toNat ++ '.' :: ds.drop point.toNat
  else
    ds ++ List.replicate (point.toNat - ds.length) '0' ++ l.wholeEnd.toList

def exponential (ds : List Char) (point : Int) : List Char :=
  let mantissa := match ds with
    | d :: e :: r => d :: '.' :: e :: r
    | ds => ds
  let e := point - 1
  let exponent := Text.Numeral.digits 10 e.natAbs
  mantissa ++ 'e' :: (if e < 0 then '-' :: exponent else exponent)

def Layout.decimal (l : Layout) (d : Scaled) : List Char :=
  let ds := Text.Numeral.digits 10 d.significand
  let point := ds.length + d.exponent
  if l.positional point then l.plain ds point else exponential ds point

/-- A double in a layout; the sign of zero is written. -/
def Layout.text (l : Layout) (x : Float) : String :=
  let bits := x.toBits
  let minus := if bits.toNat < signBit then "" else "-"
  if x.isNaN then l.nan
  else if exponentBits bits = 2047 then minus ++ l.infinity
  else if bits.toNat % signBit = 0 then minus ++ "0" ++ l.wholeEnd
  else minus ++ String.ofList (l.decimal ((Binary.ofBits bits).shortest l.tie))

end UnitGraph.Decimal
