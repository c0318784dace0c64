import Mathlib.Algebra.Order.Field.Power
import Mathlib.Data.Rat.Cast.Order
import Mathlib.Tactic.FieldSimp
import Mathlib.Tactic.Linarith
import Mathlib.Tactic.NormNum
import Mathlib.Tactic.Ring
import UnitGraph.Decimal.Shortest

/-!
# Shortest decimals lie in the rounding interval

Around every double there is an interval of numbers that round to it. The grids are searched until
one meets the interval, and one of them does before the search ends.
-/

namespace UnitGraph.Decimal

variable {x : Binary} {tie : Tie} {k : Int} {c : Nat} {v : ℚ}

theorem hiddenBit_eq : hiddenBit = 4503599627370496 :=
  rfl

/-! ## Values -/

def Scaled.value (d : Scaled) : ℚ :=
  d.significand * 10 ^ d.exponent

/-- The doubles above zero: the mantissa has all its digits unless the exponent is the least one. -/
structure Binary.IsDouble (x : Binary) : Prop where
  pos : 0 < x.mantissa
  lt : x.mantissa < 2 * hiddenBit
  least : -1074 ≤ x.exponent
  greatest : x.exponent ≤ 971
  normal : hiddenBit ≤ x.mantissa ∨ x.exponent = -1074

namespace Binary

def quarter (x : Binary) : ℚ :=
  2 ^ (x.exponent - 2)

/-- A number rounds to a double when it is inside of the interval around it. The ends belong to it
when the mantissa is even. -/
def Rounds (x : Binary) (v : ℚ) : Prop :=
  if x.mantissa % 2 = 0 then
    x.low * x.quarter ≤ v ∧ v ≤ x.high * x.quarter
  else
    x.low * x.quarter < v ∧ v < x.high * x.quarter

theorem quarter_pos (x : Binary) : 0 < x.quarter :=
  zpow_pos (by norm_num) _

theorem Rounds.bounds (h : x.Rounds v) : x.low * x.quarter ≤ v ∧ v ≤ x.high * x.quarter := by
  unfold Rounds at h
  split at h
  · exact h
  · exact ⟨h.1.le, h.2.le⟩

theorem rounds_of_lt (hlow : x.low * x.quarter < v) (hhigh : v < x.high * x.quarter) :
    x.Rounds v := by
  unfold Rounds
  split
  · exact ⟨hlow.le, hhigh.le⟩
  · exact ⟨hlow, hhigh⟩

/-! ## Candidates -/

/-- A power is a quotient of powers of which one is the first. -/
theorem zpow_mul_toNat {b : ℚ} (hb : b ≠ 0) (n : Int) : b ^ n * b ^ (-n).toNat = b ^ n.toNat := by
  rw [← zpow_natCast, ← zpow_natCast, ← zpow_add₀ hb]
  congr 1
  omega

theorem factors_eq (x : Binary) (k : Int) :
    (x.factors k).1 * (10 : ℚ) ^ k = (x.factors k).2 * x.quarter := by
  have htwo := zpow_mul_toNat (two_ne_zero (α := ℚ)) (x.exponent - 2)
  have hten := zpow_mul_toNat (b := 10) (by norm_num) k
  simp only [factors, quarter, Nat.pow_eq, Nat.cast_mul, Nat.cast_pow, Nat.cast_ofNat]
  rw [← htwo, ← hten]
  ring

theorem factors_snd_pos (x : Binary) (k : Int) : 0 < (x.factors k).2 :=
  Nat.mul_pos (Nat.pow_pos (by decide)) (Nat.pow_pos (by decide))

/-- Both sides are scaled by one positive number. -/
theorem exists_scale (x : Binary) (k : Int) (c : Nat) : ∃ r : ℚ, 0 < r ∧
    (∀ n : Nat, ((n * (x.factors k).1 : Nat) : ℚ) = n * x.quarter * r) ∧
    ((c * (x.factors k).2 : Nat) : ℚ) = c * 10 ^ k * r := by
  have hten : (0 : ℚ) < 10 ^ k := zpow_pos (by norm_num) k
  have hpos : (0 : ℚ) < (x.factors k).2 := Nat.cast_pos.mpr (x.factors_snd_pos k)
  have hfactors := x.factors_eq k
  refine ⟨(x.factors k).2 / 10 ^ k, div_pos hpos hten, fun n => ?_, ?_⟩
  · rw [Nat.cast_mul, mul_div_assoc', mul_assoc, mul_comm x.quarter, ← hfactors]
    field_simp
  · rw [Nat.cast_mul]
    field_simp

theorem mul_factors_le {n : Nat} :
    n * (x.factors k).1 ≤ c * (x.factors k).2 ↔ n * x.quarter ≤ c * (10 : ℚ) ^ k := by
  rcases x.exists_scale k c with ⟨r, hr, hn, hc⟩
  rw [← Nat.cast_le (α := ℚ), hn, hc, mul_le_mul_iff_left₀ hr]

theorem le_mul_factors {n : Nat} :
    c * (x.factors k).2 ≤ n * (x.factors k).1 ↔ c * (10 : ℚ) ^ k ≤ n * x.quarter := by
  rcases x.exists_scale k c with ⟨r, hr, hn, hc⟩
  rw [← Nat.cast_le (α := ℚ), hn, hc, mul_le_mul_iff_left₀ hr]

/-- The test on natural numbers tells which multiples of a power of ten round to a double. -/
theorem admits_iff : x.admits k c ↔ x.Rounds (c * 10 ^ k) := by
  unfold admits Rounds
  simp only
  split
  · rw [Bool.and_eq_true, decide_eq_true_eq, decide_eq_true_eq, mul_factors_le, le_mul_factors]
  · rw [Bool.and_eq_true, decide_eq_true_eq, decide_eq_true_eq, ← Nat.not_le, ← Nat.not_le,
      le_mul_factors, mul_factors_le, not_le, not_le]

theorem admits_of_onGrid? (h : x.onGrid? tie k = some c) : x.admits k c := by
  unfold onGrid? at h
  simp only at h
  split at h
  · rename_i hfirst _
    exact Option.some.inj h ▸ hfirst
  · rename_i hsecond
    exact Option.some.inj h ▸ hsecond
  · cases h
  · rename_i hfirst hsecond
    -- both neighbours read back, so whichever the tie takes will do
    have hc : c = 4 * x.mantissa * (x.factors k).1 / (x.factors k).2 ∨
        c = 4 * x.mantissa * (x.factors k).1 / (x.factors k).2 + 1 := by
      split at h
      · exact .inl (Option.some.inj h).symm
      · split at h
        · exact .inr (Option.some.inj h).symm
        · cases tie with
          | up => exact .inr (Option.some.inj h).symm
          | even =>
            rw [← Option.some.inj h]
            exact ite_eq_or_eq _ _ _
    rcases hc with rfl | rfl
    · exact hfirst
    · exact hsecond

/-! ## The search -/

theorem onGrid?_ne_none (h : x.admits k (4 * x.mantissa * (x.factors k).1 / (x.factors k).2)) :
    x.onGrid? tie k ≠ none := by
  unfold onGrid?
  simp only [h]
  split
  · exact Option.some_ne_none _
  · rename_i hfirst _
    cases hfirst
  · rename_i hfirst _
    cases hfirst
  · cases tie with
    | up => split_ifs <;> exact Option.some_ne_none _
    | even => split_ifs <;> exact Option.some_ne_none _

theorem low_le (hx : x.IsDouble) : (x.low : ℚ) ≤ 4 * x.mantissa - 1 := by
  have hpos := hx.pos
  have hlow : x.low + 1 ≤ 4 * x.mantissa := by
    unfold low
    split <;> omega
  have hlow' : (x.low : ℚ) + 1 ≤ 4 * x.mantissa := by exact_mod_cast hlow
  exact le_sub_iff_add_le.mpr hlow'

/-- As `2 ^ 13` is less than `10 ^ 4`, every double is a multiple of more than `10 ^ (-332)`. -/
theorem finest_le_quarter (hx : x.IsDouble) : (10 : ℚ) ^ (-332 : Int) ≤ x.quarter := by
  have hleast : (-1079 : Int) ≤ x.exponent - 2 := by
    have := hx.least
    omega
  calc
    (10 : ℚ) ^ (-332 : Int) = (((10 : ℚ) ^ 4) ^ 83)⁻¹ := by rw [← pow_mul, zpow_neg]; rfl
    _ ≤ (((2 : ℚ) ^ 13) ^ 83)⁻¹ := by
      apply inv_anti₀ (pow_pos (by norm_num) _)
      exact pow_le_pow_left₀ (by norm_num) (by norm_num) _
    _ = 2 ^ (-1079 : Int) := by rw [← pow_mul, zpow_neg]; rfl
    _ ≤ x.quarter := zpow_le_zpow_right₀ (by norm_num) hleast

/-- A grid that is finer than the last place of every double has a multiple that rounds to it. -/
theorem onGrid?_finest (hx : x.IsDouble) (tie : Tie) : x.onGrid? tie (-332) ≠ none := by
  apply onGrid?_ne_none
  rw [admits_iff]
  -- the grid is finer than the interval, so the point below the double is in it
  generalize hc : 4 * x.mantissa * (x.factors (-332)).1 / (x.factors (-332)).2 = c
  have hbelow : (c : ℚ) * 10 ^ (-332 : Int) ≤ (4 * x.mantissa : Nat) * x.quarter := by
    rw [← le_mul_factors, ← hc]
    exact Nat.div_mul_le_self _ _
  have habove : ((4 * x.mantissa : Nat) : ℚ) * x.quarter < (c + 1 : Nat) * 10 ^ (-332 : Int) := by
    rw [← not_le, ← le_mul_factors, not_le, ← hc, Nat.mul_comm (_ / _ + 1)]
    exact Nat.lt_mul_div_succ _ (x.factors_snd_pos _)
  have hlow := mul_le_mul_of_nonneg_right (low_le hx) x.quarter_pos.le
  have hfinest := finest_le_quarter hx
  have hquarter := x.quarter_pos
  generalize (10 : ℚ) ^ (-332 : Int) = p at hbelow habove hfinest ⊢
  push_cast at hbelow habove
  refine rounds_of_lt (by linarith) ?_
  rw [high]
  push_cast
  linarith

theorem search_eq {steps i : Nat} (hi : i < steps) (h : x.onGrid? tie (k - i) ≠ none) :
    ∃ c k', x.search tie steps k = ⟨c, k'⟩ ∧ x.onGrid? tie k' = some c := by
  induction steps generalizing i k with
  | zero => exact absurd hi (Nat.not_lt_zero i)
  | succ steps ih =>
    rw [search]
    cases hgrid : x.onGrid? tie k with
    | some c => exact ⟨c, k, rfl, hgrid⟩
    | none =>
      cases i with
      | zero => rw [Nat.cast_zero, sub_zero] at h; exact absurd hgrid h
      | succ i =>
        refine ih (Nat.lt_of_succ_lt_succ hi) ?_
        rwa [Nat.cast_succ, add_comm, ← sub_sub] at h

/-- The shortest decimal rounds to the double that it is for. -/
theorem rounds_shortest (hx : x.IsDouble) (tie : Tie) : x.Rounds (x.shortest tie).value := by
  have hfinest := onGrid?_finest hx tie
  rcases search_eq (x := x) (k := 309) (show 641 < 660 by omega) hfinest with ⟨c, k, hsearch, hgrid⟩
  rw [shortest, hsearch]
  exact admits_iff.mp (admits_of_onGrid? hgrid)

/-! ## The interval is above zero -/

theorem Rounds.pos (hx : x.IsDouble) (h : x.Rounds v) : 0 < v := by
  have hpos := hx.pos
  have hlow : 0 < x.low := by
    unfold low
    split <;> omega
  exact lt_of_lt_of_le (mul_pos (Nat.cast_pos.mpr hlow) x.quarter_pos) h.bounds.1

end Binary

end UnitGraph.Decimal
