import Mathlib
import UnitGraph.Yaml.Cursor

/-!
# Lines

Where the next line starts with a letter, the space before it is skipped and no more.
-/

namespace UnitGraph.Yaml

variable {c : Char} {s t r : List Char} {p : Place} {k : Nat}

/-! ## Characters -/

theorem not_isBreak_of_isBlank (h : isBlank c) : isBreak c = false := by
  rw [isBlank, Bool.or_eq_true, decide_eq_true_eq, decide_eq_true_eq] at h
  cases h with
  | inl h => rw [h]; decide
  | inr h => rw [h]; decide

theorem ne_carriageReturn (h : isBreak c = false) : c ≠ '\r' := by
  intro hc
  rw [hc] at h
  exact absurd h (by decide)

theorem toNat_of_isAlpha (h : c.isAlpha) :
    65 ≤ c.toNat ∧ c.toNat ≤ 90 ∨ 97 ≤ c.toNat ∧ c.toNat ≤ 122 := by
  simpa [Char.isAlpha, Char.isUpper, Char.isLower, UInt32.le_iff_toNat_le] using h

/-- A letter is no character below the letters. -/
theorem ne_of_isAlpha {d : Char} (h : c.isAlpha) (hd : d.toNat < 65) : c ≠ d := by
  rintro rfl
  have := toNat_of_isAlpha h
  omega

theorem not_isBlank_of_isAlpha (h : c.isAlpha) : isBlank c = false := by
  rw [isBlank, Bool.or_eq_false_iff, decide_eq_false_iff_not, decide_eq_false_iff_not]
  exact ⟨ne_of_isAlpha h (by decide), ne_of_isAlpha h (by decide)⟩

theorem not_isBreak_of_isAlpha (h : c.isAlpha) : isBreak c = false := by
  have hc := toNat_of_isAlpha h
  simp only [isBreak, Bool.or_eq_false_iff, decide_eq_false_iff_not]
  omega

theorem not_atDocumentMark (h : ∀ c ∈ s.head?, c.isAlpha) : atDocumentMark s = false := by
  unfold atDocumentMark
  split
  · exact absurd (h '-' rfl) (by decide)
  · exact absurd (h '.' rfl) (by decide)
  · rfl

theorem atGap_append (h : atGap s = false) : atGap (s ++ t) = false := by
  cases s with
  | nil => cases h
  | cons c s => exact h

/-! ## Places -/

theorem Place.column_foldl_past (s : List Char) (p : Place) :
    (s.foldl past p).column = p.column + s.length := by
  induction s generalizing p with
  | nil => rfl
  | cons c s ih =>
    rw [List.foldl_cons, ih, List.length_cons]
    change p.column + 1 + s.length = _
    omega

theorem Place.line_foldl_past (s : List Char) (p : Place) : (s.foldl past p).line = p.line := by
  induction s generalizing p with
  | nil => rfl
  | cons c s ih => rw [List.foldl_cons, ih]; rfl

theorem Place.offset_foldl_past (s : List Char) (p : Place) :
    (s.foldl past p).offset = p.offset + (s.map Char.utf8Size).sum := by
  induction s generalizing p with
  | nil => rfl
  | cons c s ih =>
    rw [List.foldl_cons, ih, List.map_cons, List.sum_cons]
    change p.offset + c.utf8Size + _ = _
    omega

theorem Place.advance_succ (p : Place) (k : Nat) : p.advance (k + 1) = (p.advance 1).advance k := by
  simp only [advance, Nat.add_assoc, Nat.add_comm 1 k]

/-! ## Space before tokens -/

variable {inBrackets keyAllowed : Bool}

theorem skipToToken_indent :
    skipToToken inBrackets false keyAllowed (List.replicate k ' ' ++ r) p =
      skipToToken inBrackets false keyAllowed r (p.advance k) := by
  induction k generalizing p with
  | zero => rfl
  | succ k ih =>
    rw [List.replicate_succ, List.cons_append, skipToToken, if_neg (by decide),
      if_neg (by decide), if_pos (by rfl), Place.advance_succ, ← ih]
    · rfl
    · exact fun _ h => absurd h (by decide)

theorem skipToToken_lineFeed :
    skipToToken false false keyAllowed ('\n' :: s) p =
      skipToToken false false true s p.nextLine := by
  rw [skipToToken, if_pos (by decide), Bool.not_false, Bool.or_true]
  exact fun _ h => absurd h (by decide)

/-- Nothing is skipped before a character that is no space, no line end and no comment. -/
theorem skipToToken_cons (hblank : isBlank c = false) (hbreak : isBreak c = false) (hc : c ≠ '#')
    (hmark : c ≠ byteOrderMark) :
    skipToToken inBrackets false keyAllowed (c :: s) p = (⟨c :: s, p⟩, keyAllowed) := by
  rw [isBlank, Bool.or_eq_false_iff, decide_eq_false_iff_not, decide_eq_false_iff_not] at hblank
  rw [skipToToken, hbreak]
  · simp [hc, hmark, hblank]
  · exact fun _ h => absurd h (ne_carriageReturn hbreak)

theorem skipToToken_letter (h : ∀ c ∈ r.head?, c.isAlpha) :
    skipToToken inBrackets false keyAllowed r p = (⟨r, p⟩, keyAllowed) := by
  cases r with
  | nil => rfl
  | cons c s =>
    have hc := h c rfl
    refine skipToToken_cons (not_isBlank_of_isAlpha hc) (not_isBreak_of_isAlpha hc)
      (ne_of_isAlpha hc (by decide)) ?_
    rintro rfl
    exact absurd hc (by decide)

end UnitGraph.Yaml
