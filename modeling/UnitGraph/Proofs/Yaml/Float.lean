import Mathlib
import UnitGraph.Proofs.Decimal.Scientific
import UnitGraph.Proofs.Yaml.Scalar.Decimal

/-!
# Doubles read back

The text of a double stands for the same double: its digits and its exponent, in either layout, are
those of a decimal that rounds to it.
-/

namespace UnitGraph.Yaml

open Text (span_append Numeral.digits)
open Text.Numeral (value value_append value_replicate_zero value_digits read?_ten)
open Decimal (Layout Scaled Binary exponential exponentBits signBit)

variable {whole fraction ds r : List Char} {e : Int} {d : Scaled} {x : Float}

namespace Scalar

/-! ## Digits -/

theorem decimalDigits?_point (hne : whole ≠ []) (hwhole : ∀ c ∈ whole, c.isDigit)
    (hfraction : ∀ c ∈ fraction, c.isDigit) (hr : ∀ c ∈ r.head?, ¬c.isDigit) :
    decimalDigits? (whole ++ '.' :: (fraction ++ r)) = some (whole, fraction, r) := by
  have hpoint : ∀ c ∈ ('.' :: (fraction ++ r)).head?, ¬c.isDigit := by
    rintro c ⟨⟩
    decide
  unfold decimalDigits?
  simp only [span_append hwhole hpoint, span_append hfraction hr]
  rw [if_neg (by simp [hne])]

theorem decimalDigits?_exponent (hne : whole ≠ []) (hwhole : ∀ c ∈ whole, c.isDigit) :
    decimalDigits? (whole ++ 'e' :: r) = some (whole, [], 'e' :: r) := by
  have hletter : ∀ c ∈ ('e' :: r).head?, ¬c.isDigit := by
    rintro c ⟨⟩
    decide
  unfold decimalDigits?
  simp only [span_append hwhole hletter]
  rw [if_neg (by simp [hne])]
  rfl

/-- A text with these digits and this exponent is read as their decimal. -/
theorem decimal?_eq {s : List Char} (hs : decimalDigits? s = some (whole, fraction, r))
    (hne : whole ≠ []) (hwhole : ∀ c ∈ whole, c.isDigit) (hfraction : ∀ c ∈ fraction, c.isDigit)
    (he : exponent? r = some e) :
    decimal? s = some (scaled (value (whole ++ fraction)) (e - fraction.length)) := by
  have hread : Text.Numeral.read? 10 (whole ++ fraction) = some (value (whole ++ fraction)) :=
    read?_ten.mpr ⟨by simp [hne], List.forall_mem_append.mpr ⟨hwhole, hfraction⟩, rfl⟩
  unfold decimal?
  simp [hs, he, hread]

theorem exponent?_exponent (e : Int) :
    exponent? ('e' :: (if e < 0 then '-' :: Numeral.digits 10 e.natAbs
      else Numeral.digits 10 e.natAbs)) = some e := by
  have hread := Text.Numeral.read?_digits (show 2 ≤ 10 by omega) (show 10 ≤ 16 by omega) e.natAbs
  rcases Text.Numeral.digits_eq_cons e.natAbs with ⟨c, s, hcs, hc⟩
  unfold exponent?
  by_cases he : e < 0
  · have hneg : -(e.natAbs : Int) = e := by omega
    simp only [he, if_true, decide_true, Bool.true_or, hread, Option.map_some, Int.ofNat_eq_natCast,
      hneg]
  · -- without a minus sign a digit comes first, which is no sign either
    have hplus : c ≠ '+' := ne_of_isDigit hc rfl
    have hminus : c ≠ '-' := ne_of_isDigit hc rfl
    rw [if_neg he, hcs]
    rw [hcs] at hread
    have hpos : (e.natAbs : Int) = e := by omega
    simp [hplus, hminus, hread, hpos]

/-! ## Layouts -/

def ReadsDecimal (s : List Char) (v : ℚ) : Prop :=
  ∃ m e, decimal? s = some (scaled m e) ∧ (m * 10 ^ e : ℚ) = v

theorem readsDecimal_point (hne : whole ≠ []) (hwhole : ∀ c ∈ whole, c.isDigit)
    (hfraction : ∀ c ∈ fraction, c.isDigit) (hr : ∀ c ∈ r.head?, ¬c.isDigit)
    (he : exponent? r = some e) :
    ReadsDecimal (whole ++ '.' :: (fraction ++ r))
      (value (whole ++ fraction) * 10 ^ (e - fraction.length)) :=
  ⟨_, _, decimal?_eq (decimalDigits?_point hne hwhole hfraction hr) hne hwhole hfraction he, rfl⟩

theorem isDigit_of_mem_replicate {k : Nat} : ∀ c ∈ List.replicate k '0', c.isDigit := fun _ hc =>
  List.eq_of_mem_replicate hc ▸ rfl

theorem readsDecimal_fraction (hne : whole ≠ []) (hwhole : ∀ c ∈ whole, c.isDigit)
    (hfraction : ∀ c ∈ fraction, c.isDigit) :
    ReadsDecimal (whole ++ '.' :: fraction) (value (whole ++ fraction) / 10 ^ fraction.length) := by
  have hnil : ∀ c ∈ ([] : List Char).head?, ¬c.isDigit := fun c hc => nomatch hc
  have hread := readsDecimal_point hne hwhole hfraction hnil (show exponent? [] = some 0 from rfl)
  rwa [List.append_nil, zero_sub, zpow_neg, zpow_natCast, ← div_eq_mul_inv] at hread

variable {point : Int}

/-- All digits are after the point. -/
theorem readsDecimal_below (hds : ∀ c ∈ ds, c.isDigit) (hpoint : point ≤ 0) :
    ReadsDecimal (['0', '.'] ++ List.replicate (-point).toNat '0' ++ ds)
      (value ds * 10 ^ (point - ds.length)) := by
  have hread := readsDecimal_fraction (List.cons_ne_nil '0' [])
    (List.forall_mem_singleton.mpr rfl)
    (List.forall_mem_append.mpr ⟨isDigit_of_mem_replicate (k := (-point).toNat), hds⟩)
  -- zeros in front add nothing to the value
  have hvalue : value (['0'] ++ (List.replicate (-point).toNat '0' ++ ds)) = value ds := by
    change value (List.replicate ((-point).toNat + 1) '0' ++ ds) = value ds
    rw [value_append, value_replicate_zero, Nat.zero_mul, Nat.zero_add]
  have hexponent : point - ds.length =
      -((List.replicate (-point).toNat '0' ++ ds).length : Int) := by
    rw [List.length_append, List.length_replicate]
    omega
  rw [hexponent, zpow_neg, zpow_natCast, ← div_eq_mul_inv, ← hvalue]
  exact hread

/-- The point is among the digits. -/
theorem readsDecimal_within (hne : ds ≠ []) (hds : ∀ c ∈ ds, c.isDigit) (hpoint : 0 < point)
    (hlt : point < ds.length) :
    ReadsDecimal (ds.take point.toNat ++ '.' :: ds.drop point.toNat)
      (value ds * 10 ^ (point - ds.length)) := by
  have hwhole : ds.take point.toNat ≠ [] := by
    rw [ne_eq, List.take_eq_nil_iff, not_or]
    exact ⟨by omega, hne⟩
  have hread := readsDecimal_fraction hwhole (fun c hc => hds c (List.mem_of_mem_take hc))
    fun c (hc : c ∈ ds.drop point.toNat) => hds c (List.mem_of_mem_drop hc)
  -- every digit behind the point is one power of ten less
  have hexponent : point - ds.length = -((ds.drop point.toNat).length : Int) := by
    rw [List.length_drop]
    omega
  rw [hexponent, zpow_neg, zpow_natCast, ← div_eq_mul_inv]
  rwa [List.take_append_drop] at hread

/-- All digits are before the point. -/
theorem readsDecimal_above (hne : ds ≠ []) (hds : ∀ c ∈ ds, c.isDigit)
    (hge : ds.length ≤ point) :
    ReadsDecimal (ds ++ List.replicate (point.toNat - ds.length) '0' ++ ['.', '0'])
      (value ds * 10 ^ (point - ds.length)) := by
  have hwhole : ds ++ List.replicate (point.toNat - ds.length) '0' ≠ [] := fun h =>
    hne (List.append_eq_nil_iff.mp h).1
  have hfraction : ∀ c ∈ ['0'], c.isDigit := List.forall_mem_singleton.mpr rfl
  have hread := readsDecimal_fraction hwhole
    (List.forall_mem_append.mpr ⟨hds, isDigit_of_mem_replicate⟩) hfraction
  have hexponent : point - ds.length = ((point.toNat - ds.length : Nat) : Int) := by omega
  -- the zeros in between bring in their powers of ten, the one behind the point none
  have hzero : value ['0'] = 0 := rfl
  have hvalue : (value (ds ++ List.replicate (point.toNat - ds.length) '0' ++ ['0']) : ℚ) /
      10 ^ ['0'].length = value ds * 10 ^ (point - ds.length) := by
    rw [value_append, value_append, value_replicate_zero, hzero, List.length_replicate, hexponent,
      zpow_natCast]
    simp
  rwa [hvalue] at hread

theorem readsDecimal_plain (hne : ds ≠ []) (hds : ∀ c ∈ ds, c.isDigit) (point : Int) :
    ReadsDecimal (floatLayout.plain ds point) (value ds * 10 ^ (point - ds.length)) := by
  unfold Layout.plain
  split
  case isTrue hpoint => exact readsDecimal_below hds hpoint
  case isFalse hpoint =>
    split
    case isTrue hlt => exact readsDecimal_within hne hds (Int.not_le.mp hpoint) hlt
    case isFalse hge => exact readsDecimal_above hne hds (Int.not_lt.mp hge)

theorem readsDecimal_exponential (hne : ds ≠ []) (hds : ∀ c ∈ ds, c.isDigit) (point : Int) :
    ReadsDecimal (exponential ds point) (value ds * 10 ^ (point - ds.length)) := by
  have hexponent := exponent?_exponent (point - 1)
  unfold exponential
  split
  · rename_i c b r
    have hread := readsDecimal_point (List.cons_ne_nil c [])
      (List.forall_mem_singleton.mpr (hds c List.mem_cons_self))
      (fun a ha => hds a (List.mem_cons_of_mem c ha)) (by rintro a ⟨⟩; decide) hexponent
    have hlength : point - 1 - (b :: r).length = point - (c :: b :: r).length := by
      rw [List.length_cons (a := c)]
      omega
    rwa [hlength] at hread
  · rename_i hsingle
    -- a single digit has no point, only an exponent
    have hlength : ds.length = 1 := by
      match ds, hne, hsingle with
      | [c], _, _ => rfl
      | c :: b :: r, _, hsingle => exact absurd rfl (hsingle c b r)
    refine ⟨_, _, decimal?_eq (decimalDigits?_exponent hne hds) hne hds (List.forall_mem_nil _)
      hexponent, ?_⟩
    rw [List.append_nil, List.length_nil, hlength, Nat.cast_zero, sub_zero, Nat.cast_one]

/-- The text of a decimal is read as a decimal of the same value. -/
theorem readsDecimal_decimal (d : Scaled) : ReadsDecimal (floatLayout.decimal d) d.value := by
  have hne := Text.Numeral.digits_ne_nil (show 2 ≤ 10 by omega) d.significand
  have hds : ∀ c ∈ Numeral.digits 10 d.significand, c.isDigit :=
    fun c => Text.Numeral.isDigit_of_mem_digits
  have hvalue : (value (Numeral.digits 10 d.significand) : ℚ) *
      10 ^ ((Numeral.digits 10 d.significand).length + d.exponent -
        (Numeral.digits 10 d.significand).length) = d.value := by
    rw [value_digits, add_sub_cancel_left]
    rfl
  -- with or without an exponent, the value is the same
  unfold Layout.decimal
  simp only
  rw [← hvalue]
  split
  · exact readsDecimal_plain hne hds _
  · exact readsDecimal_exponential hne hds _

/-- The shortest decimal of a double is read as the double. -/
theorem decimal?_shortest {x : Binary} (hx : x.IsDouble) :
    decimal? (floatLayout.decimal (x.shortest floatLayout.tie)) =
      some (x.toFloat .positive hx.pos) := by
  rcases readsDecimal_decimal (x.shortest floatLayout.tie) with ⟨m, e, hread, hvalue⟩
  have hrounds := Binary.rounds_shortest hx floatLayout.tie
  rw [← hvalue] at hrounds
  rw [hread, scaled, Decimal.ofScientific_eq_toFloat hx hrounds]

/-! ## Doubles -/

/-- Decimals have none of the spellings of infinities and of what is no number. -/
theorem float?_eq_finite? {s : List Char} (hs : IsSigned s) : float? s = finite? s := by
  unfold float?
  rw [any_eq_false hs (by decide), any_eq_false hs (by decide), any_eq_false hs (by decide)]
  rfl

theorem finite?_eq {s : List Char} (hs : IsDecimal s) :
    finite? s = (decimal? s).bind fun x => if x.isFinite then some x else none := by
  rcases hs.exists_cons with ⟨c, t, rfl, hc⟩
  have hplus : c ≠ '+' := ne_of_isDigit hc rfl
  have hminus : c ≠ '-' := ne_of_isDigit hc rfl
  simp [finite?, hplus, hminus]

section

variable (hfinite : exponentBits x.toBits ≠ 2047) (hpos : 0 < (Binary.ofBits x.toBits).mantissa)
include hfinite hpos

theorem isFinite_of_exponentBits : x.isFinite ∧ x.isNaN = false := by
  have hunpack : x.toModel.unpack = _ := Decimal.unpack_of_exponentBits_ne hfinite hpos
  constructor
  · change x.toModel.unpack.isFinite = true
    rw [hunpack]
    rfl
  · change x.toModel.unpack.isNaN = false
    rw [hunpack]
    rfl

theorem toList_text : (floatLayout.text x).toList =
    (if x.toBits.toNat < signBit then [] else ['-']) ++
      floatLayout.decimal ((Binary.ofBits x.toBits).shortest floatLayout.tie) := by
  have hnan := (isFinite_of_exponentBits hfinite hpos).2
  have hzero : x.toBits.toNat % signBit ≠ 0 := fun h =>
    hpos.ne' (Decimal.mantissa_ofBits_eq_zero.mpr h)
  unfold Layout.text
  simp only
  rw [hnan, if_neg Bool.false_ne_true, if_neg hfinite, if_neg hzero, String.toList_append,
    String.toList_ofList]
  split <;> rfl

theorem isSigned_text : IsSigned (floatLayout.text x).toList := by
  rw [toList_text hfinite hpos]
  split
  · exact .positive (isDecimal_decimal _)
  · exact .negative (isDecimal_decimal _)

theorem finite?_text : finite? (floatLayout.text x).toList = some x := by
  have hdouble := Decimal.isDouble_ofBits hfinite hpos
  have hread := decimal?_shortest hdouble
  have hself := Decimal.toFloat_ofBits hfinite hpos
  have hisFinite := (isFinite_of_exponentBits hfinite hpos).1
  rw [toList_text hfinite hpos]
  -- a minus sign is read as the negative of what stands behind it
  unfold Decimal.signOf at hself
  split
  · rename_i hsign
    rw [if_pos hsign] at hself
    rw [List.nil_append, finite?_eq (isDecimal_decimal _), hread, hself]
    simp [hisFinite]
  · rename_i hsign
    rw [if_neg hsign, ← Decimal.neg_toFloat hdouble] at hself
    simp [finite?, hread, hself, hisFinite]

end

theorem eq_zero (h : x.toBits.toNat % signBit = 0) : x = 0.0 ∨ x = -0.0 := by
  have hlt := x.toBits.toNat_lt
  rw [Decimal.signBit_eq] at h
  rcases Nat.lt_or_ge x.toBits.toNat 9223372036854775808 with hsign | hsign
  · exact .inl (Decimal.eq_of_toBits (n := 0) (by omega) (by decide))
  · exact .inr (Decimal.eq_of_toBits (n := 0x8000000000000000) (by omega) (by decide))

/-- The doubles that are no decimals, and the texts that are written for them. -/
def nonfinite : List (Float × String) :=
  [(0.0 / 0.0, ".nan"), (1.0 / 0.0, ".inf"), (-1.0 / 0.0, "-.inf")]

/-- What is written for a double is a decimal that is read as it, or one of the spellings for the
doubles that are not finite. -/
theorem text_cases (x : Float) : (x, floatLayout.text x) ∈ nonfinite ∨
    IsSigned (floatLayout.text x).toList ∧ finite? (floatLayout.text x).toList = some x := by
  by_cases hfinite : exponentBits x.toBits = 2047
  · left
    cases hnan : x.isNaN with
    | true =>
      have hx : x = 0.0 / 0.0 := by
        rw [Float.isNaN_eq_decide_eq_nan, decide_eq_true_eq] at hnan
        exact hnan
      rw [hx]
      exact List.mem_cons_self
    | false =>
      -- three names for what is not finite
      rcases Decimal.eq_infinity hnan hfinite with ⟨-, rfl⟩ | ⟨-, rfl⟩
      · exact List.mem_cons_of_mem _ List.mem_cons_self
      · exact List.mem_cons_of_mem _ (List.mem_cons_of_mem _ List.mem_cons_self)
  · right
    rcases Nat.eq_zero_or_pos (Binary.ofBits x.toBits).mantissa with hzero | hpos
    · -- zero is no number of digits and an exponent, and is written out with its sign
      have hdecimal : IsDecimal ['0', '.', '0'] :=
        .of_append (List.cons_ne_nil '0' []) (List.forall_mem_singleton.mpr rfl)
          (List.forall_mem_singleton.mpr rfl) (.inl rfl)
      rcases eq_zero (Decimal.mantissa_ofBits_eq_zero.mp hzero) with rfl | rfl
      · exact ⟨.positive hdecimal, rfl⟩
      · exact ⟨.negative hdecimal, rfl⟩
    · exact ⟨isSigned_text hfinite hpos, finite?_text hfinite hpos⟩

/-- Every double is what its text stands for. -/
theorem resolve_text (x : Float) : resolve (floatLayout.text x).toList = .float x := by
  have hnonfinite : ∀ e ∈ nonfinite, resolve e.2.toList = .float e.1 :=
    List.forall_mem_cons.mpr ⟨rfl, List.forall_mem_cons.mpr
      ⟨rfl, List.forall_mem_singleton.mpr rfl⟩⟩
  rcases text_cases x with hspecial | ⟨hsigned, hfinite⟩
  · exact hnonfinite (x, floatLayout.text x) hspecial
  · exact resolve_eq_float hsigned ((float?_eq_finite? hsigned).trans hfinite)

theorem plain_text (x : Float) :
    Style.Plain (floatLayout.text x).toList ∧ (floatLayout.text x).toList ≠ [] := by
  have hspelling : ∀ s ∈ [".nan", ".inf", "-.inf"], Style.plainHolds s.toList ∧ s.toList ≠ [] := by
    decide
  rcases text_cases x with hspecial | ⟨hsigned, -⟩
  · have hholds := hspelling _ (List.mem_map_of_mem (f := Prod.snd) hspecial)
    exact ⟨Style.plain_of_plainHolds hholds.1, hholds.2⟩
  · exact ⟨hsigned.plain, hsigned.ne_nil⟩

end Scalar

end UnitGraph.Yaml
