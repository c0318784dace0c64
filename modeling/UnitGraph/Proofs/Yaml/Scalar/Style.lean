import UnitGraph.Proofs.Yaml.Cursor
import UnitGraph.Yaml.Scalar.Printer

/-!
# What texts in a style are made of

Texts outside double quotes have printable characters only: of blanks these are spaces, of line ends
line feeds and separators.
-/

namespace UnitGraph.Yaml

variable {a b c : Char} {s t : List Char}

namespace Style

/-! ## Characters -/

theorem isAllowed_of_isPrintable (h : isPrintable c) : isAllowed c := by
  simp only [isPrintable, isAllowed, Bool.or_eq_true, Bool.and_eq_true, decide_eq_true_eq] at h ⊢
  omega

theorem eq_space_of_isBlank (h : isPrintable c) (hblank : isBlank c) : c = ' ' := by
  rw [isBlank, Bool.or_eq_true, decide_eq_true_eq, decide_eq_true_eq] at hblank
  cases hblank with
  | inl hc => exact hc
  | inr hc =>
    rw [hc] at h
    exact absurd h (by decide)

theorem ne_carriageReturn_of_isPrintable (h : isPrintable c) : c ≠ '\r' := by
  intro hc
  rw [hc] at h
  exact absurd h (by decide)

theorem ne_tab_of_isPrintable (h : isPrintable c) : c ≠ '\t' := by
  intro hc
  rw [hc] at h
  exact absurd h (by decide)

theorem ne_byteOrderMark_of_isPrintable (h : isPrintable c) : c ≠ byteOrderMark := by
  intro hc
  rw [hc] at h
  exact absurd h (by decide)

/-- A line end stands for itself. -/
theorem breakText_of_isPrintable (h : isPrintable c) (hbreak : isBreak c) : breakText c = c := by
  simp only [isPrintable, isBreak, Bool.or_eq_true, Bool.and_eq_true, decide_eq_true_eq] at h hbreak
  have hc : c.toNat = 0x0A ∨ c.toNat = 0x2028 ∨ c.toNat = 0x2029 := by omega
  rw [breakText]
  rcases hc with hc | hc
  · rw [if_neg (by rw [hc]; decide), ← Char.ofNat_toNat c, hc]
  · rw [if_pos (by simpa using hc)]

/-! ## Neighbours -/

variable {p : Char → Char → Bool}

theorem hasPair_cons_cons : hasPair p (a :: b :: s) = (p a b || hasPair p (b :: s)) :=
  rfl

theorem hasPair_of_cons (h : hasPair p (a :: s) = false) : hasPair p s = false := by
  cases s with
  | nil => rfl
  | cons b s =>
    rw [hasPair_cons_cons, Bool.or_eq_false_iff] at h
    exact h.2

theorem not_of_hasPair (h : hasPair p (a :: s) = false) (hb : b ∈ s.head?) : p a b = false := by
  cases s with
  | nil => cases hb
  | cons d s =>
    rw [hasPair_cons_cons, Bool.or_eq_false_iff] at h
    cases hb
    exact h.1

/-! ## What the styles hold -/

theorem needsEscapes_eq_false : needsEscapes s = false ↔
    (∀ c ∈ s, isPrintable c) ∧ hasPair (fun a b => a = ' ' && isBreak b) s = false := by
  rw [needsEscapes, Bool.or_eq_false_iff, Bool.not_eq_false', List.all_eq_true]

structure Plain (s : List Char) : Prop where
  printable : ∀ c ∈ s, isPrintable c
  onLine : ∀ c ∈ s, isBreak c = false
  head : s.head? ≠ some ' '
  last : s.getLast? ≠ some ' '
  noMark : startsWithMark s = false
  noKey : hasKeyMark s = false
  noComment : hasPair (fun a b => isBlank a && b = '#') s = false

theorem plain_of_plainHolds (h : plainHolds s) : Plain s := by
  simp only [plainHolds, Bool.and_eq_true, Bool.not_eq_true', decide_eq_true_eq,
    needsEscapes_eq_false, List.any_eq_false, Bool.not_eq_true] at h
  rcases h with ⟨⟨⟨⟨⟨⟨⟨hprintable, -⟩, hbreak⟩, hhead⟩, hlast⟩, hmark⟩, hkey⟩, hcomment⟩
  exact ⟨hprintable, hbreak, hhead, hlast, hmark, hkey, hcomment⟩

/-! ## The choice of a style -/

theorem of_ofText_eq_plain (h : ofText s = .plain) : readsAsText s ∧ plainHolds s := by
  unfold ofText at h
  split at h
  · split at h <;> cases h
  · split at h
    · rename_i hplain
      exact Bool.and_eq_true_iff.mp hplain
    · split at h <;> cases h

theorem of_ofText_eq_singleQuoted (h : ofText s = .singleQuoted) : '\n' ∉ s ∧ singleHolds s := by
  unfold ofText at h
  split at h
  · split at h <;> cases h
  · rename_i hfeed
    split at h
    · cases h
    · split at h
      · rename_i hsingle
        exact ⟨by simpa using hfeed, hsingle⟩
      · cases h

theorem of_ofText_eq_literal (h : ofText s = .literal) : '\n' ∈ s ∧ literalHolds s := by
  unfold ofText at h
  split at h
  · rename_i hfeed
    split at h
    · rename_i hliteral
      exact ⟨by simpa using hfeed, hliteral⟩
    · cases h
  · split at h
    · cases h
    · split at h <;> cases h

/-- A text that is read as text stands for itself. -/
theorem resolve_of_readsAsText (h : readsAsText s) : Scalar.resolve s = .text s := by
  -- every branch that gives a text gives the scalar itself
  have hself : ∀ t, Scalar.resolve s = .text t → t = s := by
    intro t ht
    unfold Scalar.resolve at ht
    split at ht
    · cases ht
    · split at ht
      · cases ht
      · split at ht
        · cases ht
        · split at ht
          · exact (Scalar.text.inj ht).symm
          · split at ht
            · cases ht
            · exact (Scalar.text.inj ht).symm
  unfold readsAsText at h
  split at h
  · rename_i t ht
    rw [ht, hself t ht]
  · cases h

namespace Plain

theorem not_isBlank_head (h : Plain (c :: s)) : isBlank c = false := by
  rw [← Bool.not_eq_true]
  intro hblank
  have hspace := eq_space_of_isBlank (h.printable c List.mem_cons_self) hblank
  exact h.head (congrArg some hspace)

theorem not_isIndicator_head (h : Plain (c :: s)) : isIndicator c = false := by
  exact (Bool.or_eq_false_iff.mp (Bool.or_eq_false_iff.mp h.noMark).2).1

/-- An indicator in front that could mean something before a gap is not before one. -/
theorem not_atGap_tail (h : Plain (c :: s)) (hc : c = '-' ∨ c = '?' ∨ c = ':') :
    atGap s = false := by
  have hmark := (Bool.or_eq_false_iff.mp (Bool.or_eq_false_iff.mp h.noMark).2).2
  have hkey := (Bool.or_eq_false_iff.mp h.noKey).1
  rcases hc with rfl | rfl | rfl
  · exact hmark
  · exact hmark
  · exact hkey

end Plain

end Style

/-! ## Indented lines -/

namespace Printer

variable {margin : Nat} {lineStart : Bool}

theorem indented_break (hc : isBreak c) :
    indented margin lineStart (c :: s) = c :: indented margin true s := by
  rw [indented, if_pos hc]

theorem indented_cons (hc : isBreak c = false) :
    indented margin lineStart (c :: s) =
      (if lineStart then List.replicate margin ' ' else []) ++ c :: indented margin false s := by
  rw [indented, hc]
  rfl

end Printer

end UnitGraph.Yaml
