import UnitGraph.Proofs.Text
import UnitGraph.Proofs.Yaml.Scalar.Style

/-!
# Doubles in documents

A finite double is written with a point or an exponent, so the text stands for a float and neither
for an integer nor for anything else.
-/

namespace UnitGraph.Yaml

open Text (Numeral.digits)
open Decimal (Layout Scaled exponential)

variable {c : Char} {s ds : List Char} {x : Float}

/-! ## Shapes -/

def isDecimalChar (c : Char) : Bool :=
  c.isDigit || c = '.' || c = 'e' || c = '-'

/-- Texts with the shape of a decimal that is no integer, the sign apart. -/
structure IsDecimal (s : List Char) : Prop where
  chars : ∀ c ∈ s, isDecimalChar c
  head : ∃ c ∈ s.head?, c.isDigit
  mark : ∃ c ∈ s, c = '.' ∨ c = 'e'

theorem isDecimalChar_of_isDigit (h : c.isDigit) : isDecimalChar c := by
  rw [isDecimalChar, h]
  rfl

theorem isDecimalChar_of_mem_digits {n : Nat} (h : c ∈ Numeral.digits 10 n) : isDecimalChar c :=
  isDecimalChar_of_isDigit (Text.Numeral.isDigit_of_mem_digits h)

/-- Digits, and then a point or an exponent with what belongs to it. -/
theorem IsDecimal.of_append {t : List Char} (hne : ds ≠ []) (hds : ∀ c ∈ ds, c.isDigit)
    (ht : ∀ c ∈ t, isDecimalChar c) (hc : c = '.' ∨ c = 'e') : IsDecimal (ds ++ c :: t) where
  chars := by
    have hmark : isDecimalChar c := by
      rcases hc with rfl | rfl <;> rfl
    intro d hd
    rw [List.mem_append, List.mem_cons] at hd
    rcases hd with hd | rfl | hd
    · exact isDecimalChar_of_isDigit (hds d hd)
    · exact hmark
    · exact ht d hd
  head := by
    cases ds with
    | nil => exact absurd rfl hne
    | cons d ds => exact ⟨d, rfl, hds d List.mem_cons_self⟩
  mark := ⟨c, List.mem_append_right ds List.mem_cons_self, hc⟩

theorem isDecimal_plain {point : Int} (hne : ds ≠ []) (hds : ∀ c ∈ ds, c.isDigit) :
    IsDecimal (floatLayout.plain ds point) := by
  unfold Layout.plain
  split
  · -- all digits behind the point
    rw [List.append_assoc]
    change IsDecimal (['0'] ++ '.' :: (List.replicate (-point).toNat '0' ++ ds))
    refine .of_append (List.cons_ne_nil _ _) (List.forall_mem_singleton.mpr rfl) ?_ (.inl rfl)
    intro c hc
    rw [List.mem_append, List.mem_replicate] at hc
    rcases hc with ⟨-, rfl⟩ | hc
    · rfl
    · exact isDecimalChar_of_isDigit (hds c hc)
  · rename_i hpoint
    split
    · -- digits on both sides
      refine .of_append ?_ (fun c hc => hds c (List.mem_of_mem_take hc))
        (fun c hc => isDecimalChar_of_isDigit (hds c (List.mem_of_mem_drop hc))) (.inl rfl)
      rw [ne_eq, List.take_eq_nil_iff]
      rintro (htoNat | hnil)
      · omega
      · exact hne hnil
    · -- none behind, where one zero is written
      change IsDecimal (_ ++ '.' :: ['0'])
      refine .of_append (fun h => hne (List.append_eq_nil_iff.mp h).1) ?_
        (List.forall_mem_singleton.mpr rfl) (.inl rfl)
      intro c hc
      rw [List.mem_append, List.mem_replicate] at hc
      rcases hc with hc | ⟨-, rfl⟩
      · exact hds c hc
      · rfl

theorem isDecimal_exponential {point : Int} (hne : ds ≠ []) (hds : ∀ c ∈ ds, c.isDigit) :
    IsDecimal (exponential ds point) := by
  -- an exponent is a number with or without a minus sign
  have hexponent : ∀ c ∈ (if point - 1 < 0 then '-' :: Numeral.digits 10 (point - 1).natAbs
      else Numeral.digits 10 (point - 1).natAbs), isDecimalChar c := by
    intro c hc
    split at hc
    · rw [List.mem_cons] at hc
      rcases hc with rfl | hc
      · rfl
      · exact isDecimalChar_of_mem_digits hc
    · exact isDecimalChar_of_mem_digits hc
  unfold exponential
  split
  · rename_i d e r
    have hd : ∀ c ∈ [d], c.isDigit := List.forall_mem_singleton.mpr (hds d List.mem_cons_self)
    -- one digit before the point, if there is more than one
    refine .of_append (c := '.') (List.cons_ne_nil d []) hd ?_ (.inl rfl)
    · intro c hc
      cases List.mem_append.mp hc with
      | inl hc => exact isDecimalChar_of_isDigit (hds c (List.mem_cons_of_mem d hc))
      | inr hc =>
        rcases List.mem_cons.mp hc with rfl | hc
        · rfl
        · exact hexponent c hc
  · exact .of_append hne hds hexponent (.inr rfl)

theorem isDecimal_decimal (d : Scaled) : IsDecimal (floatLayout.decimal d) := by
  have hne := Text.Numeral.digits_ne_nil (show 2 ≤ 10 by omega) d.significand
  have hds : ∀ c ∈ Numeral.digits 10 d.significand, c.isDigit :=
    fun c => Text.Numeral.isDigit_of_mem_digits
  unfold Layout.decimal
  simp only
  split
  · exact isDecimal_plain hne hds
  · exact isDecimal_exponential hne hds

inductive IsSigned : List Char → Prop
  | positive {s : List Char} (h : IsDecimal s) : IsSigned s
  | negative {s : List Char} (h : IsDecimal s) : IsSigned ('-' :: s)

namespace IsSigned

theorem chars (h : IsSigned s) : ∀ c ∈ s, isDecimalChar c := by
  cases h with
  | positive h => exact h.chars
  | negative h => exact List.forall_mem_cons.mpr ⟨rfl, h.chars⟩

/-- A text with any other character is none. -/
theorem ne (h : IsSigned s) {t : List Char} (ht : t.all isDecimalChar = false) : t ≠ s := by
  rintro rfl
  exact absurd (List.all_eq_true.mpr h.chars) (by rw [ht]; decide)

end IsSigned

/-! ## Plain scalars -/

/-- What holds of decimal characters can be tested. -/
theorem of_isDecimalChar {p : Char → Bool}
    (hp : ∀ n < 128, isDecimalChar (Char.ofNat n) → p (Char.ofNat n)) (h : isDecimalChar c) :
    p c := by
  have hc : c.toNat < 128 := by
    simp only [isDecimalChar, Bool.or_eq_true, decide_eq_true_eq] at h
    rcases h with ((h | rfl) | rfl) | rfl
    · simp [Char.isDigit, UInt32.le_iff_toNat_le] at h
      exact Nat.lt_of_le_of_lt h.2 (by decide)
    all_goals decide
  rw [← Char.ofNat_toNat c] at h ⊢
  exact hp _ hc h

theorem isPrintable_of_isDecimalChar (h : isDecimalChar c) : Style.isPrintable c :=
  of_isDecimalChar (by decide) h

theorem not_isBreak_of_isDecimalChar (h : isDecimalChar c) : isBreak c = false :=
  Bool.not_eq_true' _ |>.mp (of_isDecimalChar (p := fun c => !isBreak c) (by decide) h)

theorem not_isIndicator_of_isDecimalChar (h : isDecimalChar c) : isIndicator c = false :=
  Bool.not_eq_true' _ |>.mp (of_isDecimalChar (p := fun c => !isIndicator c) (by decide) h)

theorem not_isBlank_of_isDecimalChar (h : isDecimalChar c) : isBlank c = false :=
  Bool.not_eq_true' _ |>.mp (of_isDecimalChar (p := fun c => !isBlank c) (by decide) h)

theorem hasKeyMark_eq_false (h : ':' ∉ s) : Style.hasKeyMark s = false := by
  induction s with
  | nil => rfl
  | cons c s ih =>
    rw [List.mem_cons, not_or] at h
    simp [Style.hasKeyMark, Ne.symm h.1, ih h.2]

theorem hasPair_eq_false {p : Char → Char → Bool} (h : ∀ a ∈ s, ∀ b, p a b = false) :
    Style.hasPair p s = false := by
  induction s with
  | nil => rfl
  | cons c s ih =>
    cases s with
    | nil => rfl
    | cons d s =>
      rw [Style.hasPair_cons_cons, h c List.mem_cons_self,
        ih fun a ha => h a (List.mem_cons_of_mem c ha)]
      rfl

theorem IsDecimal.exists_cons (h : IsDecimal s) : ∃ d t, s = d :: t ∧ d.isDigit := by
  rcases h.head with ⟨d, hhead, hd⟩
  cases s with
  | nil => cases hhead
  | cons c s =>
    cases hhead
    exact ⟨d, s, rfl, hd⟩

theorem ne_of_isDigit {d : Char} (h : c.isDigit) (hd : d.isDigit = false) : c ≠ d := by
  rintro rfl
  rw [h] at hd
  cases hd

theorem atGap_of_isDecimalChar (h : isDecimalChar c) : atGap (c :: s) = false := by
  rw [atGap, not_isBlank_of_isDecimalChar h, not_isBreak_of_isDecimalChar h]
  rfl

namespace IsSigned

theorem startsWithMark_eq_false (h : IsSigned s) : Style.startsWithMark s = false := by
  cases h with
  | positive h =>
    rcases h.exists_cons with ⟨d, s, rfl, hd⟩
    -- the first character decides: no digit is a mark
    have hindicator := not_isIndicator_of_isDecimalChar (isDecimalChar_of_isDigit hd)
    have hminus : d ≠ '-' := ne_of_isDigit hd rfl
    have hpoint : d ≠ '.' := ne_of_isDigit hd rfl
    have hquestion : d ≠ '?' := ne_of_isDigit hd rfl
    simp [Style.startsWithMark, List.isPrefixOf, hindicator, hminus, hminus.symm, hpoint.symm,
      hquestion]
  | negative h =>
    rcases h.exists_cons with ⟨d, s, rfl, hd⟩
    -- a minus sign is a mark only before a gap
    have hgap := atGap_of_isDecimalChar (s := s) (isDecimalChar_of_isDigit hd)
    have hminus : d ≠ '-' := ne_of_isDigit hd rfl
    have hindicator : isIndicator '-' = false := rfl
    simp [Style.startsWithMark, List.isPrefixOf, hgap, hminus.symm, hindicator]

theorem plain (h : IsSigned s) : Style.Plain s where
  printable c hc := isPrintable_of_isDecimalChar (h.chars c hc)
  onLine c hc := not_isBreak_of_isDecimalChar (h.chars c hc)
  head hs := absurd (h.chars ' ' (List.mem_of_mem_head? hs)) (by decide)
  last hs := absurd (h.chars ' ' (List.mem_of_getLast? hs)) (by decide)
  noMark := h.startsWithMark_eq_false
  noKey := hasKeyMark_eq_false fun hs => absurd (h.chars ':' hs) (by decide)
  noComment := hasPair_eq_false fun c hc _ => by
    rw [not_isBlank_of_isDecimalChar (h.chars c hc), Bool.false_and]

theorem ne_nil (h : IsSigned s) : s ≠ [] := by
  cases h with
  | positive h =>
    rcases h.exists_cons with ⟨d, t, rfl, -⟩
    exact List.cons_ne_nil d t
  | negative h => exact List.cons_ne_nil _ _

end IsSigned

/-! ## What they stand for -/

namespace IsDecimal

theorem not_all_isDigit (h : IsDecimal s) : ¬∀ c ∈ s, c.isDigit := by
  intro hall
  rcases h.mark with ⟨c, hc, rfl | rfl⟩
  · exact absurd (hall _ hc) (by decide)
  · exact absurd (hall _ hc) (by decide)

theorem read?_eq_none (h : IsDecimal s) : Text.Numeral.read? 10 s = none := by
  rw [Option.eq_none_iff_forall_ne_some]
  intro n hn
  exact h.not_all_isDigit (Text.Numeral.read?_ten.mp hn).2.1

theorem magnitude?_eq_none (h : IsDecimal s) : Scalar.magnitude? s = none := by
  have hradix : ∀ c t, isDecimalChar c = false → s ≠ '0' :: c :: t := by
    rintro c t hc rfl
    have hc' := h.chars c (by simp)
    rw [hc'] at hc
    cases hc
  unfold Scalar.magnitude?
  split
  · exact absurd rfl (hradix 'x' _ rfl)
  · exact absurd rfl (hradix 'o' _ rfl)
  · exact absurd rfl (hradix 'b' _ rfl)
  · split
    · rfl
    · exact h.read?_eq_none

end IsDecimal

theorem of_isZeroPadded (h : Scalar.isZeroPadded s) :
    ∃ t, (∀ c ∈ t, c.isDigit) ∧ (s = t ∨ s = '+' :: t ∨ s = '-' :: t) := by
  have hall : ∀ {d r}, List.all (d :: r) Char.isDigit → ∀ c ∈ '0' :: d :: r, c.isDigit := fun h =>
    List.forall_mem_cons.mpr ⟨rfl, List.all_eq_true.mp h⟩
  unfold Scalar.isZeroPadded at h
  simp only at h
  split at h
  · rename_i hs
    split at hs
    · exact ⟨_, hs ▸ hall h, .inr (.inl rfl)⟩
    · exact ⟨_, hs ▸ hall h, .inr (.inr rfl)⟩
    · exact ⟨_, hs ▸ hall h, .inl rfl⟩
  · cases h

theorem isZeroPadded_eq_false (h : IsSigned s) : Scalar.isZeroPadded s = false := by
  rw [← Bool.not_eq_true]
  intro hpadded
  rcases of_isZeroPadded hpadded with ⟨t, ht, hs⟩
  -- a point or an exponent stands somewhere, and padded digits have neither
  cases h with
  | positive h =>
    rcases h.exists_cons with ⟨d, r, rfl, hd⟩
    rcases hs with rfl | hs | hs
    · exact h.not_all_isDigit ht
    all_goals
      rw [(List.cons.inj hs).1] at hd
      exact absurd hd (by decide)
  | negative h =>
    rcases hs with rfl | hs | hs
    · exact absurd (ht '-' List.mem_cons_self) (by decide)
    · exact absurd (List.cons.inj hs).1 (by decide)
    · rw [(List.cons.inj hs).2] at h
      exact h.not_all_isDigit ht

theorem integer?_eq_none (h : IsSigned s) : Scalar.integer? s = none := by
  cases h with
  | positive h =>
    rcases h.exists_cons with ⟨d, t, rfl, hd⟩
    have hminus : d ≠ '-' := ne_of_isDigit hd rfl
    have hplus : d ≠ '+' := ne_of_isDigit hd rfl
    simp [Scalar.integer?, hminus, hplus, h.magnitude?_eq_none]
  | negative h => simp [Scalar.integer?, h.magnitude?_eq_none]

/-- Words with other characters are no decimals. -/
theorem any_eq_false (h : IsSigned s) {words : List String}
    (hwords : words.all fun w => !w.toList.all isDecimalChar) :
    words.any (·.toList = s) = false := by
  rw [List.any_eq_false]
  intro w hw
  have hother := List.all_eq_true.mp hwords w hw
  rw [Bool.not_eq_true'] at hother
  rw [decide_eq_true_eq]
  exact h.ne hother

/-- A decimal that is read as a float stands for it. -/
theorem resolve_eq_float (h : IsSigned s) (hx : Scalar.float? s = some x) :
    Scalar.resolve s = .float x := by
  have hnil : s.isEmpty = false := List.isEmpty_eq_false_iff.mpr h.ne_nil
  have hnull : Scalar.isNull s = false := any_eq_false h (by decide)
  have hbool : Scalar.bool? s = none := by
    rw [Scalar.bool?, any_eq_false h (by decide), any_eq_false h (by decide)]
    rfl
  unfold Scalar.resolve
  simp [hnil, hnull, hbool, isZeroPadded_eq_false h, integer?_eq_none h, hx]

end UnitGraph.Yaml
