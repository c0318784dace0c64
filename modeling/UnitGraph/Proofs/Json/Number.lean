import UnitGraph.Json.Number
import UnitGraph.Proofs.Count
import UnitGraph.Proofs.Text

/-!
# Natural numbers read back

A numeral that stands where nothing extends it is a literal, and its value is read exactly as long
as it fits a count.
-/

namespace UnitGraph.Json.Number

open Text

variable {n m : Nat} {s ds rest : List Char}

def Ends (rest : List Char) : Prop :=
  ∀ c ∈ rest.head?, c = ',' ∨ c = ']' ∨ c = '}'

def Literal.ofNat (n : Nat) : Literal :=
  ⟨false, Numeral.digits 10 n, [], 0, true⟩

theorem someDigits_append (hds : ds ≠ []) (hdigits : ∀ c ∈ ds, c.isDigit)
    (hrest : Ends rest) : someDigits (ds ++ rest) = .ok (ds, rest) := by
  have hspan : (ds ++ rest).span Char.isDigit = (ds, rest) := by
    refine span_append hdigits fun c hc => ?_
    obtain rfl | rfl | rfl := hrest c hc <;> decide
  unfold someDigits
  rw [hspan]
  cases ds with
  | nil => exact absurd rfl hds
  | cons d ds => rfl

theorem whole_digits (n : Nat) (hrest : Ends rest) :
    whole (Numeral.digits 10 n ++ rest) = .ok (Numeral.digits 10 n, rest) := by
  have hne := Numeral.digits_ne_nil (show 2 ≤ 10 by omega) n
  unfold whole
  rw [someDigits_append hne (fun c hc => Numeral.isDigit_of_mem_digits hc) hrest]
  simp only [bind, Except.bind]
  split
  · rename_i h
    have hnil := Numeral.eq_nil_of_digits_eq_zero_cons h
    cases hnil
  · rfl

theorem literal_digits (n : Nat) (hrest : Ends rest) :
    literal (Numeral.digits 10 n ++ rest) = .ok (.ofNat n, rest) := by
  -- what follows is no point and no exponent, so the literal is the digits
  have hfraction : fraction rest = .ok (none, rest) := by
    unfold fraction
    split
    · simp [Ends] at hrest
    · rfl
  have hexponent : exponent rest = .ok (none, rest) := by
    unfold exponent
    split <;> simp_all [Ends]
  unfold literal
  split
  rename_i negative s hsign
  split at hsign
  · -- a digit is no sign
    rename_i hminus
    obtain ⟨c, t, hct, hdigit⟩ := Numeral.digits_eq_cons n
    rw [hct, List.cons_append, List.cons.injEq] at hminus
    rw [hminus.1] at hdigit
    exact absurd hdigit (by decide)
  · cases hsign
    simp only [whole_digits n hrest, hfraction, hexponent, bind, Except.bind]
    rfl

/-! ## Values -/

theorem le_of_extend? (h : Numeral.extend? 10 m ds = some n) : m ≤ n := by
  induction ds generalizing m with
  | nil =>
    cases h
    omega
  | cons d ds ih =>
    obtain ⟨v, _, h⟩ := Numeral.extend?_cons_eq_some.mp h
    have hle := ih h
    omega

/-- As long as the value is a count no digit is left over. -/
theorem accumulate_of_extend? (h : Numeral.extend? 10 m ds = some n) (hn : n < Count.bound) :
    accumulate m ds = (n, []) := by
  induction ds generalizing m with
  | nil =>
    cases h
    rfl
  | cons d ds ih =>
    obtain ⟨v, hd, h⟩ := Numeral.extend?_cons_eq_some.mp h
    have hvalue : digitsValue [d] = v := by
      simp [digitsValue, Numeral.read?, Numeral.extend?, hd]
    have hle := le_of_extend? h
    rw [accumulate, hvalue, if_pos (by omega)]
    exact ih h

theorem ofLiteral_ofNat (n : Count) : ofLiteral (.ofNat n.toNat) = .ok (.natural n) := by
  have hread := Numeral.extend?_digits (show 2 ≤ 10 by omega) (by omega) n.toNat
  have hacc := accumulate_of_extend? hread (UInt64.toNat_lt n)
  simp only [ofLiteral, Literal.ofNat, hacc, Count.clamp_toNat]
  rfl

end UnitGraph.Json.Number
