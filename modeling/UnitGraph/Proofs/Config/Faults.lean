import Mathlib
import UnitGraph.Config

/-!
# What the check of settings finds

The check refuses settings for the first thing that is wrong with them and accepts all others.
-/

namespace UnitGraph.Config

open Float.Model (UnpackedFloat)

variable {c : Config} {e : Error} {x y : Float}

/-! ## Comparisons of doubles -/

theorem compare_swap (a b : UnpackedFloat) : b.compare a = (a.compare b).map Ordering.swap := by
  cases a with
  | notANumber => cases b <;> rfl
  | infinity s =>
    cases b with
    | notANumber => cases s <;> rfl
    | infinity t => cases s <;> cases t <;> rfl
    | zero t => cases s <;> rfl
    | finite t n k h => cases s <;> cases t <;> rfl
  | zero s =>
    cases b with
    | notANumber => rfl
    | infinity t => cases t <;> rfl
    | zero t => rfl
    | finite t n k h => cases t <;> rfl
  | finite s m e h =>
    cases b with
    | notANumber => cases s <;> rfl
    | infinity t => cases s <;> cases t <;> rfl
    | zero t => cases s <;> rfl
    | finite t n k h =>
      -- of two finite numbers of one sign, exponents are compared before mantissas
      have hexponents := Std.OrientedOrd.eq_swap (a := k) (b := e)
      have hmantissas := Std.OrientedOrd.eq_swap (a := n) (b := m)
      cases s <;> cases t
      · simp [UnpackedFloat.compare, Ordering.swap_then, hexponents, hmantissas]
      · rfl
      · rfl
      · simp [UnpackedFloat.compare, Ordering.swap_then, hexponents, hmantissas]

theorem compare_eq_none {a b : UnpackedFloat} : a.compare b = none ↔ a.isNaN ∨ b.isNaN := by
  unfold UnpackedFloat.compare
  split <;> simp_all [UnpackedFloat.isNaN]

/-- Doubles are in order, or in the opposite order, or one of them is no number. -/
theorem not_le_iff : ¬x ≤ y ↔ x.isNaN ∨ y.isNaN ∨ y < x := by
  have hle : x ≤ y ↔ (x.toModel.unpack.compare y.toModel.unpack).any (·.isLE) :=
    decide_eq_true_iff
  have hlt : y < x ↔ y.toModel.unpack.compare x.toModel.unpack == some .lt :=
    decide_eq_true_iff
  have hnone : x.toModel.unpack.compare y.toModel.unpack = none ↔ x.isNaN ∨ y.isNaN :=
    compare_eq_none
  rw [hle, hlt, compare_swap x.toModel.unpack, ← or_assoc, ← hnone]
  cases x.toModel.unpack.compare y.toModel.unpack with
  | none => simp
  | some o => cases o <;> decide

theorem not_fraction_iff : ¬(0 ≤ x ∧ x ≤ 1) ↔ x.isNaN ∨ x < 0 ∨ 1 < x := by
  have hzero : (0 : Float).isNaN = false := by decide
  have hone : (1 : Float).isNaN = false := by decide
  rw [not_and_or, not_le_iff, not_le_iff, hzero, hone]
  simp only [Bool.false_eq_true, false_or]
  tauto

/-! ## The first fault -/

/-- What is wrong with settings, where everything before is right. -/
inductive Fault (c : Config) : Error → Prop
  | range (h : c.threshold.isNaN ∨ c.threshold < 0 ∨ 1 < c.threshold) : Fault c (.range c.threshold)
  | empty {before after : List (Field × String)} {f : Field} {s : String}
      (hrange : 0 ≤ c.threshold ∧ c.threshold ≤ 1) (htexts : c.texts = before ++ (f, s) :: after)
      (hbefore : ∀ t ∈ before, ¬Text.IsBlankText t.2) (hs : Text.IsBlankText s) :
      Fault c (.empty f)

def Faultless (c : Config) : Prop :=
  0 ≤ c.threshold ∧ c.threshold ≤ 1 ∧ ∀ t ∈ c.texts, ¬Text.IsBlankText t.2

/-- With the threshold in its range, the first blank text decides. -/
theorem validate_eq (hrange : 0 ≤ c.threshold ∧ c.threshold ≤ 1) :
    c.validate = (c.texts.find? fun t => Text.IsBlankText t.2).elim (.ok ())
      fun t => .error (.empty t.1) := by
  rw [Config.validate, if_pos hrange]
  split
  case h_1 f s h =>
    have hfirst : (c.texts.find? fun t => Text.IsBlankText t.2) = some (f, s) := h
    rw [hfirst]
    rfl
  case h_2 h =>
    have hnone : (c.texts.find? fun t => Text.IsBlankText t.2) = none := h
    rw [hnone]
    rfl

theorem Fault.validate (h : c.Fault e) : c.validate = .error e := by
  cases h with
  | range h => rw [Config.validate, if_neg (not_fraction_iff.mpr h)]
  | @empty before after f s hrange htexts hbefore hs =>
    have hfind : c.texts.find? (fun t => Text.IsBlankText t.2) = some (f, s) := by
      rw [List.find?_eq_some_iff_append]
      exact ⟨decide_eq_true hs, before, after, htexts, fun t ht => by simpa using hbefore t ht⟩
    rw [validate_eq hrange, hfind]
    rfl

theorem Faultless.validate (h : c.Faultless) : c.validate = .ok () := by
  have hfind : c.texts.find? (fun t => Text.IsBlankText t.2) = none := by
    rw [List.find?_eq_none]
    exact fun t ht => by simpa using h.2.2 t ht
  rw [validate_eq ⟨h.1, h.2.1⟩, hfind]
  rfl

/-- There is a first fault, or there is none at all. -/
theorem exists_fault_or_faultless (c : Config) : (∃ e, c.Fault e) ∨ c.Faultless := by
  by_cases hrange : 0 ≤ c.threshold ∧ c.threshold ≤ 1
  · cases hfind : c.texts.find? fun t => Text.IsBlankText t.2 with
    | none =>
      rw [List.find?_eq_none] at hfind
      exact .inr ⟨hrange.1, hrange.2, fun t ht => by simpa using hfind t ht⟩
    | some t =>
      rw [List.find?_eq_some_iff_append] at hfind
      rcases hfind with ⟨ht, before, after, htexts, hbefore⟩
      exact .inl ⟨_, .empty hrange htexts (fun a ha => by simpa using hbefore a ha)
        (of_decide_eq_true ht)⟩
  · exact .inl ⟨_, .range (not_fraction_iff.mp hrange)⟩

/-- The check finds the first fault. -/
theorem validate_eq_error_iff : c.validate = .error e ↔ c.Fault e := by
  refine ⟨fun h => ?_, Fault.validate⟩
  rcases exists_fault_or_faultless c with ⟨e', he'⟩ | hc
  · rw [he'.validate] at h
    exact Except.error.inj h ▸ he'
  · rw [hc.validate] at h
    cases h

theorem validate_eq_ok_iff : c.validate = .ok () ↔ c.Faultless := by
  refine ⟨fun h => ?_, Faultless.validate⟩
  rcases exists_fault_or_faultless c with ⟨e, he⟩ | hc
  · rw [he.validate] at h
    cases h
  · exact hc

end UnitGraph.Config
