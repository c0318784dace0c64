import Mathlib
import UnitGraph.Proofs.Decimal.Bits
import UnitGraph.Proofs.Decimal.Rounding

/-!
# Decimals are read as the doubles that they round to

Short decimals are computed with doubles that hold the digits and the power of ten exactly, all
others from the digits. Either way the result is the double that the decimal rounds to.
-/

namespace UnitGraph.Decimal

open Float.Model (Format)
open Float.Model.UnpackedFloat (Sign unpack pack packComponents decreaseExponent mul div
  ofScientific)

variable {x : Binary} {y z : Float} {m n : Nat} {e : Int}

/-! ## Packed doubles -/

def Binary.toFloat (s : Sign) (x : Binary) (h : 0 < x.mantissa) : Float :=
  .ofModel (.pack (.finite s x.mantissa x.exponent h))

theorem isDouble_ofBits {bits : UInt64} (h : exponentBits bits ≠ 2047)
    (hpos : 0 < (Binary.ofBits bits).mantissa) : (Binary.ofBits bits).IsDouble := by
  have hfraction : bits.toNat % hiddenBit < hiddenBit := Nat.mod_lt _ (by decide)
  have hexponent : exponentBits bits < 2048 := by
    rw [exponentBits, signBit_eq, hiddenBit_eq]
    omega
  -- subnormal numbers share the least exponent, the others have the hidden bit
  by_cases hsubnormal : exponentBits bits = 0
  · have hm : (Binary.ofBits bits).mantissa = bits.toNat % hiddenBit := by
      simp [Binary.ofBits, hsubnormal]
    have he : (Binary.ofBits bits).exponent = -1074 := by simp [Binary.ofBits, hsubnormal]
    exact ⟨hpos, by omega, by omega, by omega, .inr he⟩
  · have hm : (Binary.ofBits bits).mantissa = bits.toNat % hiddenBit + hiddenBit := by
      simp [Binary.ofBits, hsubnormal]
    have he : (Binary.ofBits bits).exponent = (exponentBits bits : Int) - 1075 := by
      simp [Binary.ofBits, hsubnormal]
    exact ⟨hpos, by omega, by omega, by omega, .inl (by omega)⟩

/-- A double is what its magnitude and its sign make it. -/
theorem toFloat_ofBits (h : exponentBits y.toBits ≠ 2047)
    (hpos : 0 < (Binary.ofBits y.toBits).mantissa) :
    (Binary.ofBits y.toBits).toFloat (signOf y.toBits) hpos = y := by
  unfold Binary.toFloat
  rw [← unpack_of_exponentBits_ne h hpos]
  exact y.ofBits_toBits

theorem unpack_normal (s : Sign) {biased : Nat} (hpos : 0 < m) (hbiased : 0 < biased)
    (hlt : biased < 2047) (hm : hiddenBit ≤ m) (hm' : m < 2 * hiddenBit) :
    unpack Format.binary64 (packComponents Format.binary64 s (.ofNat 11 biased) (.ofNat 52 m)) =
      .finite s m (biased - 1075) hpos := by
  rw [hiddenBit_eq] at hm hm'
  have hexponent : (BitVec.ofNat 11 biased).toNat = biased := Nat.mod_eq_of_lt (by omega)
  have hones : BitVec.ofNat 11 biased ≠ -1#11 := by
    intro h
    have hall : (BitVec.ofNat 11 biased).toNat = 2047 := congrArg BitVec.toNat h
    omega
  have hzero : BitVec.ofNat 11 biased ≠ 0#11 := by
    intro h
    have hnone : (BitVec.ofNat 11 biased).toNat = 0 := congrArg BitVec.toNat h
    omega
  have hmantissa : (1#1 ++ BitVec.ofNat 52 m).toNat = m := by
    have hlt52 := (BitVec.ofNat 52 m).isLt
    rw [BitVec.toNat_append, ← Nat.shiftLeft_add_eq_or_of_lt hlt52, BitVec.toNat_ofNat]
    change 4503599627370496 + m % 4503599627370496 = m
    omega
  -- neither all ones, which are no numbers, nor all zeros, which are subnormal
  simp only [unpack, Float.Model.UnpackedFloat.unpackExponent_packComponents,
    Float.Model.UnpackedFloat.unpackMantissa_packComponents,
    Float.Model.UnpackedFloat.unpackSign_packComponents,
    Float.Model.UnpackedFloat.Sign.ofBitVec_toBitVec, hones, hzero, if_false]
  congr 1
  rw [hexponent]
  rfl

theorem unpack_subnormal (s : Sign) (hpos : 0 < m) (hm : m < hiddenBit) :
    unpack Format.binary64 (packComponents Format.binary64 s 0#11 (.ofNat 52 m)) =
      .finite s m (-1074) hpos := by
  rw [hiddenBit_eq] at hm
  have hmantissa : (BitVec.ofNat 52 m).toNat = m := Nat.mod_eq_of_lt hm
  have hzero : BitVec.ofNat 52 m ≠ 0#52 := by
    intro h
    have hnone : (BitVec.ofNat 52 m).toNat = 0 := congrArg BitVec.toNat h
    omega
  simp only [unpack, Float.Model.UnpackedFloat.unpackExponent_packComponents,
    Float.Model.UnpackedFloat.unpackMantissa_packComponents,
    Float.Model.UnpackedFloat.unpackSign_packComponents,
    Float.Model.UnpackedFloat.Sign.ofBitVec_toBitVec, hzero, hmantissa]
  rw [if_neg (by decide), if_pos trivial, dif_neg not_false]
  rfl

theorem unpack_toFloat (s : Sign) (hx : x.IsDouble) :
    (x.toFloat s hx.pos).toModel.unpack = .finite s x.mantissa x.exponent hx.pos := by
  have hleast := hx.least
  have hgreatest := hx.greatest
  change unpack Format.binary64 (pack Format.binary64 _) = _
  unfold pack
  have hbias : (x.exponent + Format.binary64.exponentBias +
      Format.binary64.mantissaBitsWithoutImplicit).toNat = (x.exponent + 1075).toNat := by
    rw [add_assoc]
    rfl
  simp only [hbias]
  rw [if_neg (by change ¬2048 ≤ _; omega)]
  -- packing tells normal numbers by the length of the mantissa
  have hlog : hiddenBit ≤ x.mantissa ↔ x.mantissa.log2 + 1 = Format.binary64.mantissaBits := by
    have hlt : x.mantissa.log2 < 53 := (Nat.log2_lt hx.pos.ne').mpr hx.lt
    change 2 ^ 52 ≤ x.mantissa ↔ x.mantissa.log2 + 1 = 53
    rw [← Nat.le_log2 hx.pos.ne']
    omega
  by_cases hnormal : hiddenBit ≤ x.mantissa
  · have hbiased : ((x.exponent + 1075).toNat : Int) - 1075 = x.exponent := by omega
    rw [if_pos (hlog.mp hnormal)]
    refine (unpack_normal s hx.pos ?_ ?_ hnormal hx.lt).trans ?_
    · omega
    · omega
    · simp only [hbiased]
  · have hsubnormal := hx.normal.resolve_left hnormal
    rw [if_neg fun h => hnormal (hlog.mpr h)]
    simp only [hsubnormal]
    exact unpack_subnormal s hx.pos (Nat.lt_of_not_le hnormal)

theorem neg_toFloat (hx : x.IsDouble) :
    -x.toFloat .positive hx.pos = x.toFloat .negative hx.pos := by
  change Float.ofModel (.pack (x.toFloat .positive hx.pos).toModel.unpack.neg) = _
  rw [unpack_toFloat .positive hx]
  rfl

/-! ## Exact doubles -/

theorem Binary.rounds_self (hx : x.IsDouble) : x.Rounds (x.mantissa * 2 ^ x.exponent) := by
  have hvalue : (x.mantissa * 2 ^ x.exponent : ℚ) = 4 * x.mantissa * x.quarter := by
    rw [quarter, zpow_sub₀ two_ne_zero]
    ring
  rw [hvalue]
  refine rounds_of_lt (mul_lt_mul_of_pos_right ?_ x.quarter_pos)
    (mul_lt_mul_of_pos_right ?_ x.quarter_pos)
  · linarith [low_le hx]
  · rw [high]
    push_cast
    linarith

def Binary.normal (m : Nat) (e : Int) : Binary :=
  ⟨m <<< (52 - m.log2), e - (52 - m.log2 : Nat)⟩

theorem Binary.value_normal (m : Nat) (e : Int) :
    ((normal m e).mantissa : ℚ) * 2 ^ (normal m e).exponent = m * 2 ^ e := by
  simp only [normal]
  rw [Nat.shiftLeft_eq, Nat.cast_mul, Nat.cast_pow, Nat.cast_ofNat, zpow_sub₀ two_ne_zero,
    zpow_natCast, mul_assoc, mul_div_cancel₀ _ (pow_ne_zero _ two_ne_zero)]

theorem Binary.normal_bounds (hm : 0 < m) (hlt : m < 2 * hiddenBit) :
    hiddenBit ≤ (normal m e).mantissa ∧ (normal m e).mantissa < 2 * hiddenBit := by
  have hlog : m.log2 < 53 := (Nat.log2_lt hm.ne').mpr hlt
  have hbit : hiddenBit = 2 ^ m.log2 * 2 ^ (52 - m.log2) := by
    rw [← Nat.pow_add, Nat.add_sub_cancel' (by omega)]
    rfl
  simp only [normal, Nat.shiftLeft_eq]
  constructor
  · rw [hbit]
    exact Nat.mul_le_mul_right _ (Nat.log2_self_le hm.ne')
  · rw [hbit, ← Nat.mul_assoc, Nat.mul_comm 2, ← Nat.pow_succ]
    exact Nat.mul_lt_mul_of_pos_right Nat.lt_log2_self (Nat.pow_pos two_pos)

theorem Binary.isDouble_normal (hm : 0 < m) (hlt : m < 2 * hiddenBit) (he : 0 ≤ e) (he' : e ≤ 22) :
    (normal m e).IsDouble := by
  rcases normal_bounds (e := e) hm hlt with ⟨hlow, hhigh⟩
  have hexponent : (normal m e).exponent = e - (52 - m.log2 : Nat) := rfl
  exact ⟨Nat.lt_of_lt_of_le (by decide) hlow, hhigh, by omega, by omega, .inl hlow⟩

/-- Natural numbers with at most the digits of a mantissa are doubles. -/
theorem toFloat_toUInt64 (hx : (Binary.normal m 0).IsDouble) (hm : 0 < m)
    (hlt : m < 2 * hiddenBit) :
    m.toUInt64.toFloat = (Binary.normal m 0).toFloat .positive hx.pos := by
  have hword : m.toUInt64.toNat = m := by
    rw [hiddenBit_eq] at hlt
    exact Nat.mod_eq_of_lt (by omega)
  -- normalizing moves the first digit up to the hidden bit and loses none
  have hround : Float.Model.UnpackedFloat.round Format.binary64 .positive m 0 =
      .finite .positive (Binary.normal m 0).mantissa (Binary.normal m 0).exponent hx.pos := by
    have hlog : m.log2 < 53 := (Nat.log2_lt hm.ne').mpr hlt
    have hshift : (0 - Format.binary64.targetExponent (Float.Model.totalExponent m 0)).toNat =
        52 - m.log2 := by
      rw [targetExponent_eq]
      omega
    have hdecrease : decreaseExponent m 0
        (Format.binary64.targetExponent (Float.Model.totalExponent m 0)) =
          ((Binary.normal m 0).mantissa, (Binary.normal m 0).exponent) := by
      unfold decreaseExponent
      simp only [hshift, Binary.normal]
    unfold Float.Model.UnpackedFloat.round
    simp only [hdecrease]
    refine roundWithAccuracy_eq .positive hx (Binary.rounds_self hx) (represents_exact _) ?_
    have hdigits : 52 ≤ (Binary.normal m 0).mantissa.log2 :=
      (Nat.le_log2 hx.pos.ne').mpr (Binary.normal_bounds hm hlt).1
    rw [targetExponent_eq]
    omega
  change Float.ofModel (.pack (Float.Model.UnpackedFloat.normalize Format.binary64
    m.toUInt64.toNat 0 .positive)) = _
  rw [hword]
  unfold Float.Model.UnpackedFloat.normalize
  rw [compare_gt_iff_gt.mpr (Int.natCast_pos.mpr hm)]
  simp only [Int.toNat_natCast, hround]
  rfl

theorem isDouble_power (hn : n ≤ 22) : (Binary.normal (5 ^ n) n).IsDouble := by
  refine Binary.isDouble_normal (Nat.pow_pos (by decide)) ?_ (Int.natCast_nonneg n) (by omega)
  exact Nat.lt_of_le_of_lt (Nat.pow_le_pow_right (by decide) hn) (by decide)

theorem toBits_powerOfTen : ∀ i : Fin Float.exactlyRepresentablePowersOfTen.size,
    Float.exactlyRepresentablePowersOfTen[i].toBits =
      ((Binary.normal (5 ^ i.val) i.val).toFloat .positive
        (isDouble_power (Nat.le_of_lt_succ i.isLt)).pos).toBits := by
  decide +kernel

/-- The powers of ten in the table are exact. -/
theorem exactlyRepresentablePowersOfTen_eq (hn : n ≤ 22)
    (h : n < Float.exactlyRepresentablePowersOfTen.size) :
    Float.exactlyRepresentablePowersOfTen[n] =
      (Binary.normal (5 ^ n) n).toFloat .positive (isDouble_power hn).pos :=
  Float.toBits_inj.mp (toBits_powerOfTen ⟨n, h⟩)

theorem value_power (n : Nat) : ((Binary.normal (5 ^ n) n).mantissa : ℚ) *
    2 ^ (Binary.normal (5 ^ n) n).exponent = 10 ^ n := by
  rw [Binary.value_normal, Nat.cast_pow, zpow_natCast, ← mul_pow]
  norm_num

/-! ## Decimals -/

/-- One division of two exact doubles rounds once. -/
theorem div_power (hnumber : (Binary.normal m 0).IsDouble) (hn : n ≤ 22) (hx : x.IsDouble)
    (h : x.Rounds (m / 10 ^ n)) :
    (Binary.normal m 0).toFloat .positive hnumber.pos /
      (Binary.normal (5 ^ n) n).toFloat .positive (isDouble_power hn).pos =
        x.toFloat .positive hx.pos := by
  change Float.ofModel (.pack (div Format.binary64 (Binary.toFloat _ _ _).toModel.unpack
    (Binary.toFloat _ _ _).toModel.unpack)) = _
  rw [unpack_toFloat _ hnumber, unpack_toFloat _ (isDouble_power hn), div_eq hx]
  · rfl
  · rwa [Binary.value_normal, value_power, zpow_zero, mul_one]

/-- One product of two exact doubles rounds once. -/
theorem mul_power (hm : 0 < m) (hlt : m < 2 * hiddenBit) (hnumber : (Binary.normal m 0).IsDouble)
    (hn : n ≤ 22) (hx : x.IsDouble) (h : x.Rounds (m * 10 ^ n)) :
    (Binary.normal m 0).toFloat .positive hnumber.pos *
      (Binary.normal (5 ^ n) n).toFloat .positive (isDouble_power hn).pos =
        x.toFloat .positive hx.pos := by
  change Float.ofModel (.pack (mul Format.binary64 (Binary.toFloat _ _ _).toModel.unpack
    (Binary.toFloat _ _ _).toModel.unpack)) = _
  rw [unpack_toFloat _ hnumber, unpack_toFloat _ (isDouble_power hn), mul_eq hx]
  · rfl
  · rwa [Binary.value_normal, value_power, zpow_zero, mul_one]
  · exact (Binary.normal_bounds hm hlt).1.trans (Nat.le_mul_of_pos_right _ (isDouble_power hn).pos)

theorem ten_zpow (hneg : ¬e < 0) : (10 : ℚ) ^ e = 10 ^ e.natAbs := by
  rw [← zpow_natCast]
  congr 1
  omega

theorem ten_zpow_neg (hneg : e < 0) : (10 : ℚ) ^ e = (10 ^ e.natAbs)⁻¹ := by
  rw [← zpow_natCast, ← zpow_neg]
  congr 1
  omega

theorem ite_natAbs (e : Int) :
    (if decide (e < 0) then Int.negOfNat e.natAbs else Int.ofNat e.natAbs) = e := by
  split
  · rename_i hneg
    rw [decide_eq_true_eq] at hneg
    rw [Int.negOfNat_eq, Int.ofNat_eq_natCast, Int.ofNat_natAbs_of_nonpos hneg.le, neg_neg]
  · rename_i hneg
    rw [decide_eq_true_eq, not_lt] at hneg
    exact Int.natAbs_of_nonneg hneg

/-- A decimal is read as the double that it rounds to. -/
theorem ofScientific_eq_toFloat (hx : x.IsDouble) (h : x.Rounds (m * 10 ^ e)) :
    Float.ofScientific m (e < 0) e.natAbs = x.toFloat .positive hx.pos := by
  have hm := h.significand_pos hx
  unfold Float.ofScientific
  split
  · -- the digits and the power of ten are both exact, so that only one step rounds
    rename_i hshort
    have hnumber : (Binary.normal m 0).IsDouble :=
      Binary.isDouble_normal hm hshort.1 le_rfl (by decide)
    simp only [exactlyRepresentablePowersOfTen_eq hshort.2, toFloat_toUInt64 hnumber hm hshort.1]
    split
    · rename_i hneg
      rw [ten_zpow_neg (decide_eq_true_eq.mp hneg), ← div_eq_mul_inv] at h
      exact div_power hnumber hshort.2 hx h
    · rename_i hneg
      rw [ten_zpow (by simpa using hneg)] at h
      exact mul_power hm hshort.1 hnumber hshort.2 hx h
  · simp only [ite_natAbs]
    change Float.ofModel (.pack (ofScientific Format.binary64 m e)) = _
    rw [ofScientific_eq hx h]
    rfl

end UnitGraph.Decimal
