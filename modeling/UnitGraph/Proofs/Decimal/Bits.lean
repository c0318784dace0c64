import Mathlib
import UnitGraph.Proofs.Decimal.Shortest

/-!
# Doubles as binary numbers

The bits of a double tell whether it is finite, and then its sign, its mantissa and its exponent.
-/

namespace UnitGraph.Decimal

open Float.Model (Format)
open Float.Model.UnpackedFloat (Sign unpack unpackExponent unpackMantissa unpackSign)

variable {bits : UInt64} {x : Float}

theorem signBit_eq : signBit = 9223372036854775808 :=
  rfl

theorem toNat_unpackExponent (bits : UInt64) :
    (@unpackExponent Format.binary64 bits.toBitVec).toNat = exponentBits bits := by
  rw [Float.Model.UnpackedFloat.unpackExponent_def, BitVec.extractLsb'_toNat]
  simp only [Nat.shiftRight_eq_div_pow, exponentBits, signBit, hiddenBit]
  change bits.toNat / 2 ^ 52 % 2 ^ 11 = bits.toNat % 2 ^ 63 / 2 ^ 52
  omega

theorem toNat_unpackMantissa (bits : UInt64) :
    (@unpackMantissa Format.binary64 bits.toBitVec).toNat = bits.toNat % hiddenBit := by
  rw [Float.Model.UnpackedFloat.unpackMantissa_def, BitVec.extractLsb'_toNat]
  rfl

theorem toNat_unpackSign (bits : UInt64) :
    (@unpackSign Format.binary64 bits.toBitVec).toNat = bits.toNat / signBit := by
  have hlt := bits.toNat_lt
  rw [Float.Model.UnpackedFloat.unpackSign_def, BitVec.extractLsb'_toNat]
  simp only [Nat.shiftRight_eq_div_pow, signBit]
  change bits.toNat / 2 ^ 63 % 2 ^ 1 = bits.toNat / 2 ^ 63
  omega

def signOf (bits : UInt64) : Sign :=
  if bits.toNat < signBit then .positive else .negative

theorem ofBitVec_unpackSign (bits : UInt64) :
    Sign.ofBitVec (@unpackSign Format.binary64 bits.toBitVec) = signOf bits := by
  have hsign := toNat_unpackSign bits
  have hlt := bits.toNat_lt
  unfold Sign.ofBitVec signOf
  by_cases h : bits.toNat < signBit
  · rw [Nat.div_eq_of_lt h] at hsign
    rw [if_pos h, if_pos (BitVec.eq_of_toNat_eq hsign)]
  · have hne : @unpackSign Format.binary64 bits.toBitVec ≠ 0#1 := by
      intro hzero
      rw [hzero] at hsign
      have hpos := Nat.div_pos (Nat.le_of_not_lt h) (by decide)
      exact absurd hsign (Nat.ne_of_lt hpos)
    rw [if_neg h, if_neg hne]

/-- A double with all exponent bits is no finite one. -/
theorem unpack_of_exponentBits_eq (h : exponentBits bits = 2047) :
    unpack Format.binary64 bits.toBitVec =
      if bits.toNat % hiddenBit = 0 then .infinity (signOf bits) else .notANumber := by
  have hexponent : @unpackExponent Format.binary64 bits.toBitVec = -1#_ :=
    BitVec.eq_of_toNat_eq ((toNat_unpackExponent bits).trans h)
  have hmantissa : @unpackMantissa Format.binary64 bits.toBitVec = 0#_ ↔
      bits.toNat % hiddenBit = 0 := by
    rw [← toNat_unpackMantissa, ← BitVec.toNat_inj]
    rfl
  simp only [unpack, hexponent, if_true, hmantissa, ofBitVec_unpackSign]

theorem toNat_hidden_append (bits : UInt64) :
    (1#1 ++ @unpackMantissa Format.binary64 bits.toBitVec).toNat =
      bits.toNat % hiddenBit + hiddenBit := by
  have hlt := (@unpackMantissa Format.binary64 bits.toBitVec).isLt
  rw [BitVec.toNat_append, ← Nat.shiftLeft_add_eq_or_of_lt hlt, toNat_unpackMantissa, Nat.add_comm]
  rfl

/-- Any other one is what its mantissa, exponent and sign say. -/
theorem unpack_of_exponentBits_ne (h : exponentBits bits ≠ 2047)
    (hpos : 0 < (Binary.ofBits bits).mantissa) :
    unpack Format.binary64 bits.toBitVec =
      .finite (signOf bits) (Binary.ofBits bits).mantissa (Binary.ofBits bits).exponent hpos := by
  have hexponent := toNat_unpackExponent bits
  have hones : @unpackExponent Format.binary64 bits.toBitVec ≠ -1#_ := by
    intro hones
    rw [hones] at hexponent
    exact h hexponent.symm
  have hzero : @unpackExponent Format.binary64 bits.toBitVec = 0#_ ↔ exponentBits bits = 0 := by
    rw [← hexponent, ← BitVec.toNat_inj]
    rfl
  have hbias :
      ((Format.binary64.exponentBias : Int) + Format.binary64.mantissaBitsWithoutImplicit) = 1075 :=
    rfl
  simp only [unpack, hones, if_false, ofBitVec_unpackSign, hzero, hexponent, hbias]
  -- a subnormal number has no hidden bit, and the exponent of the least normal ones
  by_cases hsubnormal : exponentBits bits = 0
  · have hmantissa : @unpackMantissa Format.binary64 bits.toBitVec ≠ 0#_ := by
      intro hmantissa
      have h0 := toNat_unpackMantissa bits
      rw [hmantissa] at h0
      simp [Binary.ofBits, hsubnormal, ← h0] at hpos
    simp only [hsubnormal, hmantissa, if_true, toNat_unpackMantissa, dif_neg, not_false_eq_true]
    congr 1 <;> simp [Binary.ofBits, hsubnormal]
  · have hmantissa : (Binary.ofBits bits).mantissa = bits.toNat % hiddenBit + hiddenBit := by
      simp [Binary.ofBits, hsubnormal]
    simp only [hsubnormal, if_false]
    congr 1
    · rw [hmantissa]
      exact toNat_hidden_append bits
    · simp [Binary.ofBits, hsubnormal]

theorem mantissa_ofBits_eq_zero :
    (Binary.ofBits bits).mantissa = 0 ↔ bits.toNat % signBit = 0 := by
  have hbits : bits.toNat % signBit = exponentBits bits * hiddenBit + bits.toNat % hiddenBit := by
    simp only [exponentBits, signBit_eq, hiddenBit_eq]
    omega
  rw [hbits, hiddenBit_eq]
  by_cases h : exponentBits bits = 0
  · simp [Binary.ofBits, h, hiddenBit_eq]
  · simp [Binary.ofBits, h, hiddenBit_eq]

/-! ## Infinities -/

theorem eq_of_toBits {n : Nat} {y : Float} (hx : x.toBits.toNat = n) (hy : y.toBits.toNat = n) :
    x = y := by
  rw [← Float.toBits_inj, ← UInt64.toNat_inj, hx, hy]

/-- There are two infinities. -/
theorem eq_infinity (hnan : x.isNaN = false) (h : exponentBits x.toBits = 2047) :
    x.toBits.toNat < signBit ∧ x = 1.0 / 0.0 ∨ signBit ≤ x.toBits.toNat ∧ x = -1.0 / 0.0 := by
  have hfraction : x.toBits.toNat % hiddenBit = 0 := by
    by_contra hne
    have hunpack := unpack_of_exponentBits_eq h
    rw [if_neg hne] at hunpack
    have hisNaN : (unpack Format.binary64 x.toBits.toBitVec).isNaN = false := hnan
    rw [hunpack] at hisNaN
    cases hisNaN
  have hlt := x.toBits.toNat_lt
  simp only [exponentBits, signBit_eq, hiddenBit_eq] at h hfraction ⊢
  rcases Nat.lt_or_ge x.toBits.toNat 9223372036854775808 with hsign | hsign
  · exact .inl ⟨hsign, eq_of_toBits (n := 0x7FF0000000000000) (by omega) (by decide)⟩
  · exact .inr ⟨hsign, eq_of_toBits (n := 0xFFF0000000000000) (by omega) (by decide)⟩

end UnitGraph.Decimal
