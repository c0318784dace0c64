import Mathlib
import UnitGraph.Proofs.Decimal.Shortest

/-!
# Numbers in the interval around a double are rounded to it

Products and quotients are kept with enough digits, and two bits that tell what is left. Whatever
the digits, rounding them gives the double whose interval the exact value is in.
-/

namespace UnitGraph.Decimal

open Float.Model (Format totalExponent)
open Float.Model.UnpackedFloat (Sign Accuracy ExtendedMantissa shiftToExponent shiftToTargetExponent
  roundWithAccuracy accuracyOfFraction divCore mul div ofScientific)

variable {x : Binary} {m n : Nat} {e : Int} {em : ExtendedMantissa} {acc : Accuracy} {v w : ℚ}

/-! ## Digits with two more bits -/

/-- A number is its mantissa, a half if the first bit is set, and a rest of less than a half if the
second one is. -/
def Represents (em : ExtendedMantissa) (v : ℚ) : Prop :=
  ∃ rest : ℚ, v = em.mantissa + (if em.roundBit then 1 / 2 else 0) + rest ∧
    if em.stickyBit then 0 < rest ∧ rest < 1 / 2 else rest = 0

theorem mantissa_ofMantissaAndAccuracy (m : Nat) (acc : Accuracy) :
    (ExtendedMantissa.ofMantissaAndAccuracy m acc).mantissa = m := by
  cases acc with
  | exact => rfl
  | inexact half => cases half <;> rfl

theorem represents_exact (m : Nat) : Represents (.ofMantissaAndAccuracy m .exact) m :=
  ⟨0, by simp [ExtendedMantissa.ofMantissaAndAccuracy], rfl⟩

theorem represents_fraction (m : Nat) {num den : Nat} (h : num < den) :
    Represents (.ofMantissaAndAccuracy m (accuracyOfFraction num den)) (m + num / den) := by
  have hden : (0 : ℚ) < den := Nat.cast_pos.mpr (Nat.zero_lt_of_lt h)
  have hlt : (num : ℚ) / den < 1 := (div_lt_one hden).mpr (Nat.cast_lt.mpr h)
  unfold accuracyOfFraction
  split
  · rename_i hnum
    rw [hnum, Nat.cast_zero, zero_div, add_zero]
    exact represents_exact m
  · rename_i hnum
    have hpos : (0 : ℚ) < num / den := div_pos (Nat.cast_pos.mpr (Nat.pos_of_ne_zero hnum)) hden
    -- an accuracy says of a fraction on which side of one half it lies
    rcases Nat.lt_trichotomy (2 * num) den with hhalf | hhalf | hhalf
    · have hhalf' : (num : ℚ) / den < 1 / 2 := by
        rw [div_lt_div_iff₀ hden two_pos, one_mul, mul_comm]
        exact_mod_cast hhalf
      rw [Nat.compare_eq_lt.mpr hhalf]
      exact ⟨num / den, by simp [ExtendedMantissa.ofMantissaAndAccuracy], hpos, hhalf'⟩
    · have hhalf' : (num : ℚ) / den = 1 / 2 := by
        rw [div_eq_div_iff hden.ne' two_ne_zero, one_mul, mul_comm]
        exact_mod_cast hhalf
      rw [Nat.compare_eq_eq.mpr hhalf, hhalf']
      exact ⟨0, by simp [ExtendedMantissa.ofMantissaAndAccuracy], rfl⟩
    · have hhalf' : (1 : ℚ) / 2 < num / den := by
        rw [div_lt_div_iff₀ two_pos hden, one_mul, mul_comm]
        exact_mod_cast hhalf
      rw [Nat.compare_eq_gt.mpr hhalf]
      refine ⟨num / den - 1 / 2, ?_, sub_pos.mpr hhalf', by linarith⟩
      simp [ExtendedMantissa.ofMantissaAndAccuracy]

/-- A natural number is the nearest one, and even if another one is equally near. -/
structure Nearest (n : Nat) (v : ℚ) : Prop where
  ge : n - 1 / 2 ≤ v
  le : v ≤ n + 1 / 2
  odd : n % 2 = 1 → n - 1 / 2 < v ∧ v < n + 1 / 2

namespace Represents

theorem bounds (h : Represents em v) : em.mantissa ≤ v ∧ v < em.mantissa + 1 := by
  rcases h with ⟨rest, rfl, hrest⟩
  have hhalf : (0 : ℚ) ≤ (if em.roundBit then 1 / 2 else 0) ∧
      (if em.roundBit then (1 / 2 : ℚ) else 0) ≤ 1 / 2 := by
    split <;> norm_num
  have hbounds : 0 ≤ rest ∧ rest < 1 / 2 := by
    split at hrest
    · exact ⟨hrest.1.le, hrest.2⟩
    · rw [hrest]
      norm_num
  constructor <;> linarith

/-- The last digit becomes the first bit, and both bits go into the second one. -/
theorem shiftRightOne (h : Represents em v) : Represents em.shiftRightOne (v / 2) := by
  -- the last bit of the mantissa becomes the round bit, and the old round bit joins the sticky one
  rcases em with ⟨m, r, s⟩
  rcases h with ⟨rest, rfl, hrest⟩
  have hm : ((m % 2 : Nat) : ℚ) + 2 * (m / 2 : Nat) = m := by exact_mod_cast Nat.mod_add_div m 2
  have hbit : (if (ExtendedMantissa.shiftRightOne ⟨m, r, s⟩).roundBit then (1 / 2 : ℚ) else 0) =
      (m % 2 : Nat) / 2 := by
    unfold ExtendedMantissa.shiftRightOne
    rcases Nat.mod_two_eq_zero_or_one m with hmod | hmod <;> simp [hmod]
  refine ⟨(if r then 1 / 4 else 0) + rest / 2, ?_, ?_⟩
  · change _ = ((m / 2 : Nat) : ℚ) + _ + _
    rw [hbit, ← hm]
    cases r <;> simp only [if_true, if_false, Bool.false_eq_true] <;> ring
  · cases r <;> cases s <;> simp only [ExtendedMantissa.shiftRightOne, Bool.or_false, Bool.or_true,
      if_true, if_false, Bool.false_eq_true] at hrest ⊢
    · rw [hrest]; norm_num
    · constructor <;> linarith
    · rw [hrest]; norm_num
    · constructor <;> linarith

theorem shiftRight (h : Represents em v) (n : Nat) : Represents (em >>> n) (v / 2 ^ n) := by
  change Represents (n.repeat ExtendedMantissa.shiftRightOne em) _
  induction n with
  | zero => rwa [pow_zero, div_one]
  | succ n ih =>
    rw [Nat.repeat, pow_succ, ← div_div]
    exact ih.shiftRightOne

/-- Rounding goes to the nearest natural number, and to the even one if two are equally near. -/
theorem roundedMantissa_eq (h : Represents em v) (hn : Nearest n v) : em.roundedMantissa = n := by
  rcases hn with ⟨hlow, hhigh, hodd⟩
  rcases em with ⟨m, r, s⟩
  have hbounds : m ≤ v ∧ v < m + 1 := h.bounds
  -- nearest to a value in `[m, m + 1)` is `m` or `m + 1`, and the two bits say which
  have hle : n < m + 2 := by
    have : (n : ℚ) < m + 2 := by linarith
    exact_mod_cast this
  have hge : m < n + 1 := by
    have : (m : ℚ) < n + 1 := by linarith
    exact_mod_cast this
  rcases h with ⟨rest, rfl, hrest⟩
  have hn : n = m ∨ n = m + 1 := by omega
  have hmod := Nat.mod_two_eq_zero_or_one n
  rcases hn with rfl | rfl
  · cases r <;> cases s <;> simp only [if_true, if_false, Bool.false_eq_true] at hrest hhigh hodd
    · rfl
    · rfl
    · have heven : n % 2 = 0 := hmod.resolve_right fun h => by linarith [(hodd h).2]
      exact congrArg (n + ·) heven
    · linarith
  · push_cast at hlow hodd
    cases r <;> cases s <;> simp only [if_true, if_false, Bool.false_eq_true] at hrest hlow hodd
    · linarith
    · linarith
    · have heven : (m + 1) % 2 = 0 := hmod.resolve_right fun h => by linarith [(hodd h).1]
      have hm : m % 2 = 1 := by omega
      exact congrArg (m + ·) hm
    · rfl

end Represents

/-! ## The exponent of the result -/

theorem targetExponent_eq (m : Nat) (e : Int) :
    Format.binary64.targetExponent (totalExponent m e) = max (m.log2 + e - 52) (-1074) := by
  simp only [Format.targetExponent, totalExponent, Format.mantissaBits, Format.minExponent]
  norm_num
  omega

theorem zpow_log2_le (hm : m ≠ 0) (hw : m ≤ w) : (2 : ℚ) ^ (m.log2 + e) ≤ w * 2 ^ e := by
  rw [zpow_add₀ two_ne_zero, zpow_natCast]
  have hlog : (2 : ℚ) ^ m.log2 ≤ m := by exact_mod_cast Nat.log2_self_le hm
  exact mul_le_mul_of_nonneg_right (hlog.trans hw) (zpow_pos two_pos e).le

theorem lt_zpow_log2 (hw : w < m + 1) : w * 2 ^ e < (2 : ℚ) ^ (m.log2 + 1 + e) := by
  rw [zpow_add₀ two_ne_zero, ← Nat.cast_succ, zpow_natCast]
  have hlog : (m : ℚ) + 1 ≤ 2 ^ (m.log2 + 1) := by exact_mod_cast Nat.lt_log2_self
  exact mul_lt_mul_of_pos_right (hw.trans_le hlog) (zpow_pos two_pos e)

namespace Binary

theorem zpow_mul_quarter (x : Binary) (k : Int) : 2 ^ k * x.quarter = 2 ^ (k - 2 + x.exponent) := by
  rw [quarter, ← zpow_add₀ two_ne_zero]
  congr 1
  omega

theorem Rounds.lt_zpow (h : x.Rounds v) {k : Nat} (hk : x.high < 2 ^ k) :
    v < 2 ^ ((k : Int) - 2 + x.exponent) := by
  have hhigh : (x.high : ℚ) < 2 ^ (k : Int) := by exact_mod_cast hk
  rw [← zpow_mul_quarter]
  exact h.bounds.2.trans_lt (mul_lt_mul_of_pos_right hhigh x.quarter_pos)

theorem Rounds.zpow_lt (h : x.Rounds v) {k : Nat} (hk : 2 ^ k < x.low) :
    2 ^ ((k : Int) - 2 + x.exponent) < v := by
  have hlow : (2 : ℚ) ^ (k : Int) < x.low := by exact_mod_cast hk
  rw [← zpow_mul_quarter]
  exact (mul_lt_mul_of_pos_right hlow x.quarter_pos).trans_le h.bounds.1

theorem Rounds.lt (hx : x.IsDouble) (h : x.Rounds v) : v < 2 ^ (53 + x.exponent) := by
  refine h.lt_zpow (k := 55) ?_
  have hlt := hx.lt
  rw [hiddenBit_eq] at hlt
  rw [high]
  omega

/-- The interval around a power of two starts below it, among the doubles half as far apart. -/
theorem Rounds.gt (h : x.Rounds v) (hnormal : hiddenBit ≤ x.mantissa) :
    2 ^ (51 + x.exponent) < v ∧ (x.mantissa ≠ hiddenBit → 2 ^ (52 + x.exponent) < v) := by
  rw [hiddenBit_eq] at hnormal ⊢
  refine ⟨h.zpow_lt (k := 53) ?_, fun hne => h.zpow_lt (k := 54) ?_⟩
  all_goals
    unfold low
    split <;> omega

/-- In last places, the mantissa is the nearest natural number. -/
theorem Rounds.nearest (hx : x.IsDouble) (h : x.Rounds v) :
    Nearest x.mantissa (v / 2 ^ x.exponent) := by
  have hlow : (4 * x.mantissa - 2 : ℚ) ≤ x.low := by
    have hpos := hx.pos
    have : 4 * x.mantissa ≤ x.low + 2 := by
      unfold low
      split <;> omega
    rw [sub_le_iff_le_add]
    exact_mod_cast this
  have hhigh : (x.high : ℚ) = 4 * x.mantissa + 2 := by
    rw [high]
    push_cast
    rfl
  -- the interval is given in quarters of a unit in the last place
  have hplace : v / 2 ^ x.exponent = v / x.quarter / 4 := by
    rw [div_div, quarter, zpow_sub₀ two_ne_zero]
    norm_num
  rw [hplace]
  unfold Rounds at h
  rw [← le_div_iff₀ x.quarter_pos, ← div_le_iff₀ x.quarter_pos, ← lt_div_iff₀ x.quarter_pos,
    ← div_lt_iff₀ x.quarter_pos, hhigh] at h
  split at h
  · rename_i heven
    exact ⟨by linarith, by linarith, fun hodd => by omega⟩
  · exact ⟨by linarith, by linarith, fun _ => ⟨by linarith, by linarith⟩⟩

/-- Among the doubles half as far apart, what is below a power of two is nearest to it. -/
theorem Rounds.nearest_below (h : x.Rounds v) (hmantissa : x.mantissa = hiddenBit)
    (hbelow : v < 2 ^ (52 + x.exponent)) (hleast : -1074 ≤ x.exponent - 1) :
    Nearest (2 * hiddenBit) (v / 2 ^ (x.exponent - 1)) := by
  have hlow : x.low = 4 * hiddenBit - 1 := by
    rw [low, if_pos ⟨hmantissa, by omega⟩, hmantissa]
  have hge := (le_div_iff₀ x.quarter_pos).mpr h.bounds.1
  have hplace : v / 2 ^ (x.exponent - 1) = v / x.quarter / 2 := by
    have hexponent : x.exponent - 2 + 1 = x.exponent - 1 := by omega
    rw [div_div, quarter, ← zpow_add_one₀ two_ne_zero, hexponent]
  -- below the power of two the grid is twice as fine, so it rounds up to the carry
  have hlt : v / 2 ^ (x.exponent - 1) < 2 ^ (53 : Int) := by
    have hexponent : 53 + (x.exponent - 1) = 52 + x.exponent := by omega
    rwa [div_lt_iff₀ (zpow_pos two_pos _), ← zpow_add₀ two_ne_zero, hexponent]
  have hbit : (((2 * hiddenBit : Nat) : ℚ)) = 2 ^ (53 : Int) := by
    rw [hiddenBit_eq]
    norm_num
  rw [hlow, hiddenBit_eq] at hge
  refine ⟨?_, by linarith, fun hodd => absurd hodd (by decide)⟩
  rw [hplace, hiddenBit_eq]
  norm_num at hge ⊢
  linarith

/-- Digits that are left to be rounded have the exponent of the double, or the one below if the
double is the power of two above them. -/
theorem Rounds.targetExponent_cases (hx : x.IsDouble) (h : x.Rounds (w * 2 ^ e))
    (hlow : m ≤ w) (hhigh : w < m + 1)
    (he : e ≤ Format.binary64.targetExponent (totalExponent m e)) :
    Format.binary64.targetExponent (totalExponent m e) = x.exponent ∨
      Format.binary64.targetExponent (totalExponent m e) = x.exponent - 1 ∧
        x.mantissa = hiddenBit ∧ w * 2 ^ e < 2 ^ (52 + x.exponent) ∧ -1074 ≤ x.exponent - 1 := by
  have hpow : (1 : ℚ) < 2 := one_lt_two
  have hleast := hx.least
  have hbelow := lt_zpow_log2 (e := e) hhigh
  rw [targetExponent_eq] at he ⊢
  -- the grid is never coarser than that of the double
  have hle : max (m.log2 + e - 52) (-1074) ≤ x.exponent := by
    by_cases hm : m = 0
    · rw [hm, Nat.log2_zero] at he ⊢
      omega
    · have hlt := (zpow_log2_le (e := e) hm hlow).trans_lt (h.lt hx)
      rw [zpow_lt_zpow_iff_right₀ hpow] at hlt
      omega
  -- it is finer only for a value just below a power of two
  rcases hx.normal with hnormal | hsubnormal
  · rcases h.gt hnormal with ⟨hgt, hgt'⟩
    have hge := (zpow_lt_zpow_iff_right₀ hpow).mp (hgt.trans hbelow)
    by_cases hne : x.mantissa = hiddenBit
    · by_cases heq : max (m.log2 + e - 52) (-1074) = x.exponent
      · exact .inl heq
      · refine .inr ⟨by omega, hne, hbelow.trans_le (zpow_le_zpow_right₀ hpow.le ?_), ?_⟩
        · omega
        · omega
    · have hge' := (zpow_lt_zpow_iff_right₀ hpow).mp ((hgt' hne).trans hbelow)
      exact .inl (by omega)
  · exact .inl (by omega)

end Binary

/-! ## Rounding -/

/-- The digits are cut off where the result ends, and nothing is forgotten of them. -/
theorem exists_shiftToTargetExponent (hw : Represents (.ofMantissaAndAccuracy m acc) w)
    (he : e ≤ Format.binary64.targetExponent (totalExponent m e)) :
    ∃ em, shiftToTargetExponent Format.binary64 m e acc =
        (em, Format.binary64.targetExponent (totalExponent m e)) ∧
      Represents em (w * 2 ^ e / 2 ^ Format.binary64.targetExponent (totalExponent m e)) := by
  unfold shiftToTargetExponent shiftToExponent
  generalize Format.binary64.targetExponent (totalExponent m e) = t at he ⊢
  have hadd : e + (t - e).toNat = t := by omega
  have hpow : (2 : ℚ) ^ t = 2 ^ e * 2 ^ (t - e).toNat := by
    rw [← zpow_natCast, ← zpow_add₀ two_ne_zero, hadd]
  refine ⟨_, congrArg _ hadd, ?_⟩
  rw [hpow, mul_comm w, mul_div_mul_left _ _ (zpow_ne_zero e two_ne_zero)]
  exact hw.shiftRight _

/-- A mantissa that has not too many digits stays as it is. -/
theorem shiftToTargetExponent_of_lt (hm : m < 2 * hiddenBit) (he : -1074 ≤ e) :
    shiftToTargetExponent Format.binary64 m e .exact = (⟨m, false, false⟩, e) := by
  have hlog : m.log2 < 53 := by
    by_cases h : m = 0
    · rw [h]
      decide
    · exact (Nat.log2_lt h).mpr hm
  have hle : Format.binary64.targetExponent (totalExponent m e) - e ≤ 0 := by
    rw [targetExponent_eq]
    omega
  unfold shiftToTargetExponent shiftToExponent
  simp only [Int.toNat_of_nonpos hle, Nat.cast_zero, add_zero]
  rfl

/-- A mantissa that has got one digit too many loses it. -/
theorem shiftToTargetExponent_carry (he : -1074 ≤ e) :
    shiftToTargetExponent Format.binary64 (2 * hiddenBit) e .exact =
      (⟨hiddenBit, false, false⟩, e + 1) := by
  have hlog : (2 * hiddenBit).log2 = 53 := Nat.log2_two_pow (n := 53)
  have hone : Format.binary64.targetExponent (totalExponent (2 * hiddenBit) e) - e = 1 := by
    rw [targetExponent_eq, hlog]
    omega
  unfold shiftToTargetExponent shiftToExponent
  simp only [hone]
  rfl

/-- What represents a number in the interval around a double is rounded to the double. -/
theorem roundWithAccuracy_eq (s : Sign) (hx : x.IsDouble) (h : x.Rounds (w * 2 ^ e))
    (hw : Represents (.ofMantissaAndAccuracy m acc) w)
    (he : e ≤ Format.binary64.targetExponent (totalExponent m e)) :
    roundWithAccuracy Format.binary64 s m e acc = .finite s x.mantissa x.exponent hx.pos := by
  have hbounds := hw.bounds
  rw [mantissa_ofMantissaAndAccuracy] at hbounds
  rcases exists_shiftToTargetExponent hw he with ⟨em, hshift, hem⟩
  have hcases := h.targetExponent_cases hx hbounds.1 hbounds.2 he
  unfold roundWithAccuracy
  rw [hshift]
  -- on the grid of the double, or on the finer one with a carry
  generalize Format.binary64.targetExponent (totalExponent m e) = t at hcases hem
  rcases hcases with rfl | ⟨rfl, hmantissa, hbelow, hleast⟩
  · have hrounded := hem.roundedMantissa_eq (h.nearest hx)
    simp only [hrounded, shiftToTargetExponent_of_lt hx.lt hx.least]
    rw [dif_neg hx.pos.ne']
  · have hrounded := hem.roundedMantissa_eq (h.nearest_below hmantissa hbelow hleast)
    simp only [hrounded, shiftToTargetExponent_carry hleast]
    rw [dif_neg (by decide)]
    simp only [hmantissa, sub_add_cancel]

/-! ## Products and quotients -/

variable {m₁ m₂ : Nat} {e₁ e₂ : Int} {h₁ : 0 < m₁} {h₂ : 0 < m₂}

theorem mul_eq (hx : x.IsDouble) (h : x.Rounds (m₁ * 2 ^ e₁ * (m₂ * 2 ^ e₂)))
    (hdigits : hiddenBit ≤ m₁ * m₂) :
    mul Format.binary64 (.finite .positive m₁ e₁ h₁) (.finite .positive m₂ e₂ h₂) =
      .finite .positive x.mantissa x.exponent hx.pos := by
  have hlog : 52 ≤ (m₁ * m₂).log2 := (Nat.le_log2 (Nat.mul_pos h₁ h₂).ne').mpr hdigits
  refine roundWithAccuracy_eq .positive hx ?_ (represents_exact (m₁ * m₂)) ?_
  · rwa [Nat.cast_mul, zpow_add₀ two_ne_zero, mul_mul_mul_comm]
  · rw [targetExponent_eq]
    omega

/-- The quotient has all digits of a mantissa, or goes down to the least exponent. -/
theorem le_log2_div {k : Nat} (h₁ : 0 < m₁) (h₂ : 0 < m₂) (hk : 53 + m₂.log2 ≤ m₁.log2 + k) :
    52 ≤ (m₁ <<< k / m₂).log2 := by
  have hle : 2 ^ 52 * m₂ ≤ m₁ * 2 ^ k := by
    calc
      2 ^ 52 * m₂ ≤ 2 ^ 52 * 2 ^ (m₂.log2 + 1) := Nat.mul_le_mul_left _ Nat.lt_log2_self.le
      _ = 2 ^ (53 + m₂.log2) := by rw [← Nat.pow_add]; congr 1; omega
      _ ≤ 2 ^ (m₁.log2 + k) := Nat.pow_le_pow_right two_pos hk
      _ = 2 ^ m₁.log2 * 2 ^ k := Nat.pow_add ..
      _ ≤ m₁ * 2 ^ k := Nat.mul_le_mul_right _ (Nat.log2_self_le h₁.ne')
  have hdiv : 2 ^ 52 ≤ m₁ <<< k / m₂ := by
    rwa [Nat.le_div_iff_mul_le h₂, Nat.shiftLeft_eq]
  exact (Nat.le_log2 (Nat.pos_of_ne_zero (by omega)).ne').mpr hdiv

theorem div_eq (hx : x.IsDouble) (h : x.Rounds (m₁ * 2 ^ e₁ / (m₂ * 2 ^ e₂))) :
    div Format.binary64 (.finite .positive m₁ e₁ h₁) (.finite .positive m₂ e₂ h₂) =
      .finite .positive x.mantissa x.exponent hx.pos := by
  have htarget : Format.binary64.targetExponent (totalExponent m₁ e₁ - totalExponent m₂ e₂) =
      max (m₁.log2 + e₁ - (m₂.log2 + e₂) - 53) (-1074) := by
    simp only [Format.targetExponent, totalExponent, Format.mantissaBits, Format.minExponent]
    norm_num
    omega
  unfold div divCore
  simp only [htarget]
  -- the dividend is shifted until the quotient has a bit more than a mantissa
  generalize ht : min (e₁ - e₂) (max (m₁.log2 + e₁ - (m₂.log2 + e₂) - 53) (-1074)) = t
  generalize hk : (e₁ - e₂ - t).toNat = k
  refine roundWithAccuracy_eq .positive hx ?_ (represents_fraction _ (Nat.mod_lt _ h₂)) ?_
  · -- quotient and remainder together are the exact value
    have hm₂ : (m₂ : ℚ) ≠ 0 := Nat.cast_ne_zero.mpr h₂.ne'
    have hquotient :
        ((m₁ <<< k / m₂ : Nat) : ℚ) + (m₁ <<< k % m₂ : Nat) / m₂ = m₁ * 2 ^ k / m₂ := by
      have hmod : (m₂ : ℚ) * (m₁ <<< k / m₂ : Nat) + (m₁ <<< k % m₂ : Nat) = (m₁ <<< k : Nat) := by
        exact_mod_cast Nat.div_add_mod (m₁ <<< k) m₂
      rw [Nat.shiftLeft_eq, Nat.cast_mul, Nat.cast_pow, Nat.cast_ofNat] at hmod
      rw [← hmod, Nat.shiftLeft_eq]
      field_simp
    have hexponent : (k : Int) + t = e₁ - e₂ := by omega
    have hpow : (2 : ℚ) ^ k * 2 ^ t = 2 ^ e₁ / 2 ^ e₂ := by
      rw [← zpow_natCast, ← zpow_add₀ two_ne_zero, hexponent, zpow_sub₀ two_ne_zero]
    rwa [hquotient, div_mul_eq_mul_div, mul_assoc, hpow, mul_div_assoc', div_div, mul_comm (2 ^ e₂)]
  · rw [targetExponent_eq]
    by_cases hleast : t ≤ -1074
    · omega
    · have hlog := le_log2_div (k := k) h₁ h₂ (by omega)
      omega

/-! ## Decimals -/

theorem Binary.Rounds.quarter_le (hx : x.IsDouble) (h : x.Rounds v) : x.quarter ≤ v := by
  have hlow : (1 : ℚ) ≤ x.low := by
    rw [Nat.one_le_cast]
    have hpos := hx.pos
    unfold low
    split <;> omega
  exact (le_mul_of_one_le_left x.quarter_pos.le hlow).trans h.bounds.1

theorem Binary.Rounds.significand_pos (hx : x.IsDouble) (h : x.Rounds (m * 10 ^ e)) : 0 < m := by
  apply Nat.pos_of_ne_zero
  rintro rfl
  rw [Nat.cast_zero, zero_mul] at h
  exact lt_irrefl _ (h.pos hx)

/-- No double is so large, or so small, that its decimals are not looked at. -/
theorem Binary.Rounds.exponent_bounds (hx : x.IsDouble) (h : x.Rounds (m * 10 ^ e)) :
    e ≤ 2048 ∧ -(2048 + m.log2) ≤ e := by
  have hgreatest := hx.greatest
  have hleast := hx.least
  have hten : (0 : ℚ) < 10 ^ e := zpow_pos (by norm_num) e
  constructor
  · by_contra! hlarge
    -- too large an exponent would put the number above all doubles
    have hm : (1 : ℚ) ≤ m := Nat.one_le_cast.mpr (h.significand_pos hx)
    have hlt : (2 : ℚ) ^ e < 2 ^ (53 + x.exponent) :=
      calc
        (2 : ℚ) ^ e ≤ 10 ^ e := zpow_le_zpow_left₀ (by omega) (by norm_num) (by norm_num)
        _ ≤ m * 10 ^ e := le_mul_of_one_le_left hten.le hm
        _ < 2 ^ (53 + x.exponent) := h.lt hx
    rw [zpow_lt_zpow_iff_right₀ one_lt_two] at hlt
    omega
  · by_contra! hsmall
    -- too small a one would put it below a quarter of the least double
    have hle : (10 : ℚ) ^ e ≤ 2 ^ e := by
      rw [← neg_neg e, zpow_neg, zpow_neg (2 : ℚ)]
      exact inv_anti₀ (zpow_pos two_pos _)
        (zpow_le_zpow_left₀ (by omega) (by norm_num) (by norm_num))
    have hlog : (m : ℚ) < 2 ^ (m.log2 + 1) := by exact_mod_cast Nat.lt_log2_self
    have hlt : (2 : ℚ) ^ (x.exponent - 2) < 2 ^ ((m.log2 + 1 : Nat) + e) :=
      calc
        (2 : ℚ) ^ (x.exponent - 2) ≤ m * 10 ^ e := h.quarter_le hx
        _ < 2 ^ (m.log2 + 1) * 10 ^ e := mul_lt_mul_of_pos_right hlog hten
        _ ≤ 2 ^ (m.log2 + 1) * 2 ^ e := mul_le_mul_of_nonneg_left hle (pow_pos two_pos _).le
        _ = 2 ^ ((m.log2 + 1 : Nat) + e) := by rw [zpow_add₀ two_ne_zero, zpow_natCast]
    rw [zpow_lt_zpow_iff_right₀ one_lt_two] at hlt
    omega

/-- A decimal in the interval around a double is rounded to the double. -/
theorem ofScientific_eq (hx : x.IsDouble) (h : x.Rounds (m * 10 ^ e)) :
    ofScientific Format.binary64 m e = .finite .positive x.mantissa x.exponent hx.pos := by
  have hm := h.significand_pos hx
  have hbounds := h.exponent_bounds hx
  have hlarge : ¬e > 2 ^ Format.binary64.exponentBits := not_lt.mpr hbounds.1
  have hsmall : ¬e < -((2 ^ Format.binary64.exponentBits : Int) + m.log2) := not_lt.mpr hbounds.2
  unfold ofScientific
  rw [dif_neg hm.ne', if_neg hlarge, if_neg hsmall]
  split
  · rename_i he
    -- the digits are shifted up first, so that the product has those of a mantissa
    have hexponent : ((10 ^ e.toNat : Nat) : ℚ) = 10 ^ e := by
      rw [Nat.cast_pow, Nat.cast_ofNat, ← zpow_natCast, Int.toNat_of_nonneg he]
    have hshift : ((m <<< Format.binary64.mantissaBits : Nat) : ℚ) *
        2 ^ (-Format.binary64.mantissaBits : Int) = m := by
      rw [Nat.shiftLeft_eq, Nat.cast_mul, Nat.cast_pow, Nat.cast_ofNat, zpow_neg, zpow_natCast,
        mul_assoc, mul_inv_cancel₀ (pow_ne_zero _ two_ne_zero), mul_one]
    apply mul_eq hx
    · rwa [hshift, hexponent, zpow_zero, mul_one]
    · calc
        hiddenBit ≤ 1 * 2 ^ 53 * 1 := by decide
        _ ≤ m * 2 ^ 53 * 10 ^ e.toNat :=
          Nat.mul_le_mul (Nat.mul_le_mul_right _ hm) (Nat.pow_pos (by decide))
        _ = m <<< Format.binary64.mantissaBits * 10 ^ e.toNat := by rw [Nat.shiftLeft_eq]; rfl
  · rename_i he
    -- division by a power of ten
    have hexponent : ((10 ^ (-e).toNat : Nat) : ℚ) = (10 ^ e)⁻¹ := by
      rw [Nat.cast_pow, Nat.cast_ofNat, ← zpow_natCast, Int.toNat_of_nonneg (by omega), zpow_neg]
    apply div_eq hx
    rwa [hexponent, zpow_zero, mul_one, mul_one, div_inv_eq_mul]

end UnitGraph.Decimal
