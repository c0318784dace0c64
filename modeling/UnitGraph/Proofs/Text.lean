import Mathlib.Data.List.TakeDrop
import Mathlib.Data.Nat.Digits.Defs
import UnitGraph.Text

/-!
# Numerals read back

A numeral consists of digits of its radix, has no superfluous zero in front, and is read as the
number that it was written for, with or without padding.
-/

namespace UnitGraph.Text

/-- A span ends where the predicate fails first. -/
theorem span_append {p : Char → Bool} {s t : List Char} (hs : ∀ c ∈ s, p c)
    (ht : ∀ c ∈ t.head?, ¬p c) : (s ++ t).span p = (s, t) := by
  rw [List.span_eq_takeWhile_dropWhile, List.takeWhile_append_of_pos hs,
    List.dropWhile_append_of_pos hs]
  cases t with
  | nil => rw [List.takeWhile_nil, List.dropWhile_nil, List.append_nil]
  | cons c t =>
    have hc : ¬p c := ht c rfl
    rw [List.takeWhile_cons_of_neg hc, List.dropWhile_cons_of_neg hc, List.append_nil]

namespace Numeral

variable {radix n m d width : Nat} {c : Char} {s t : List Char}

/-! ## Written numerals -/

theorem digits_of_lt (h : n < radix) : digits radix n = [Nat.digitChar n] := by
  rw [digits, if_pos (.inl h)]

theorem digits_of_ge (hr : 2 ≤ radix) (h : radix ≤ n) :
    digits radix n = digits radix (n / radix) ++ [Nat.digitChar (n % radix)] := by
  rw [digits, if_neg (by omega)]

theorem digits_eq_toDigits (hr : 2 ≤ radix) (n : Nat) : digits radix n = Nat.toDigits radix n := by
  induction n using Nat.strongRecOn with
  | ind n ih =>
    by_cases h : n < radix
    · rw [digits_of_lt h, Nat.toDigits_of_lt_base h]
    · have hlt : n / radix < n := Nat.div_lt_self (by omega) (by omega)
      rw [digits_of_ge hr (by omega), Nat.toDigits_of_base_le (by omega) (by omega), ih _ hlt]

theorem digits_ne_nil (hr : 2 ≤ radix) (n : Nat) : digits radix n ≠ [] := by
  rw [digits_eq_toDigits hr]
  exact Nat.toDigits_ne_nil

theorem exists_digitChar_of_mem_digits (hr : 2 ≤ radix) (hc : c ∈ digits radix n) :
    ∃ d < radix, c = Nat.digitChar d := by
  induction n using Nat.strongRecOn with
  | ind n ih =>
    by_cases h : n < radix
    · rw [digits_of_lt h, List.mem_singleton] at hc
      exact ⟨n, h, hc⟩
    · rw [digits_of_ge hr (Nat.le_of_not_lt h), List.mem_append, List.mem_singleton] at hc
      cases hc with
      | inl hc => exact ih _ (Nat.div_lt_self (by omega) (by omega)) hc
      | inr hc => exact ⟨_, Nat.mod_lt n (by omega), hc⟩

theorem isDigit_of_mem_digits (hc : c ∈ digits 10 n) : c.isDigit := by
  rw [digits_eq_toDigits (by omega)] at hc
  exact Nat.isDigit_of_mem_toDigits (by omega) (by omega) hc

theorem digits_eq_cons (n : Nat) : ∃ c s, digits 10 n = c :: s ∧ c.isDigit := by
  obtain ⟨c, s, hcs⟩ := List.exists_cons_of_ne_nil (digits_ne_nil (show 2 ≤ 10 by omega) n)
  exact ⟨c, s, hcs, isDigit_of_mem_digits (hcs ▸ List.mem_cons_self : c ∈ digits 10 n)⟩

theorem length_padded (h : (digits radix n).length ≤ width) :
    (padded radix width n).length = width := by
  simp only [padded, List.length_append, List.length_replicate]
  omega

/-! ## Reading -/

theorem digitValue?_digitChar (hr : radix ≤ 16) (h : d < radix) :
    digitValue? radix (Nat.digitChar d) = some d := by
  have hvalue : ∀ d < 16, digitValue? 16 (Nat.digitChar d) = some d := by decide
  have hd := hvalue d (by omega)
  unfold digitValue? at hd ⊢
  rw [Option.filter_eq_some_iff] at hd ⊢
  exact ⟨hd.1, decide_eq_true h⟩

theorem extend?_cons_eq_some : extend? radix n (c :: s) = some m ↔
    ∃ v, digitValue? radix c = some v ∧ extend? radix (radix * n + v) s = some m := by
  rw [extend?]
  exact Option.bind_eq_some_iff

theorem extend?_append :
    extend? radix n (s ++ t) = (extend? radix n s).bind (extend? radix · t) := by
  induction s generalizing n with
  | nil => rfl
  | cons c s ih =>
    simp only [List.cons_append, extend?]
    cases digitValue? radix c with
    | none => rfl
    | some v => exact ih

theorem extend?_digits (hr : 2 ≤ radix) (hr' : radix ≤ 16) (n : Nat) :
    extend? radix 0 (digits radix n) = some n := by
  induction n using Nat.strongRecOn with
  | ind n ih =>
    by_cases h : n < radix
    · rw [digits_of_lt h, extend?, digitValue?_digitChar hr' h]
      simp [extend?]
    · have hlt : n / radix < n := Nat.div_lt_self (by omega) (by omega)
      have hd := digitValue?_digitChar hr' (Nat.mod_lt n (by omega))
      rw [digits_of_ge hr (by omega), extend?_append, ih _ hlt, Option.bind_some, extend?, hd]
      simp [extend?, Nat.div_add_mod]

theorem read?_digits (hr : 2 ≤ radix) (hr' : radix ≤ 16) (n : Nat) :
    read? radix (digits radix n) = some n := by
  rw [read?, if_neg (by simpa using digits_ne_nil hr n), extend?_digits hr hr']

theorem digits_injective (hr : 2 ≤ radix) (hr' : radix ≤ 16) (h : digits radix n = digits radix m) :
    n = m := by
  have hread := read?_digits hr hr' n
  rw [h, read?_digits hr hr' m] at hread
  exact (Option.some.inj hread).symm

/-- Zeros in front do not count. -/
theorem read?_padded (hr : 2 ≤ radix) (hr' : radix ≤ 16) (width n : Nat) :
    read? radix (padded radix width n) = some n := by
  have hzero : ∀ k, extend? radix 0 (List.replicate k '0') = some 0 := by
    intro k
    induction k with
    | zero => rfl
    | succ k ih =>
      rw [List.replicate_succ, extend?, show '0' = Nat.digitChar 0 from rfl,
        digitValue?_digitChar hr' (by omega)]
      exact ih
  have hne := digits_ne_nil hr n
  rw [read?, if_neg (by simp [padded, hne]), padded, extend?_append, hzero, Option.bind_some,
    extend?_digits hr hr']

/-- A zero in front is the whole numeral. -/
theorem eq_nil_of_digits_eq_zero_cons (h : digits 10 n = '0' :: s) : s = [] := by
  induction n using Nat.strongRecOn generalizing s with
  | ind n ih =>
    by_cases hn : n < 10
    · rw [digits_of_lt hn, List.cons.injEq] at h
      exact h.2.symm
    · have hlt : n / 10 < n := Nat.div_lt_self (by omega) (by omega)
      rw [digits_of_ge (by omega) (by omega)] at h
      cases hd : digits 10 (n / 10) with
      | nil => exact absurd hd (digits_ne_nil (by omega) _)
      | cons c rest =>
        rw [hd, List.cons_append, List.cons.injEq] at h
        obtain ⟨rfl, -⟩ := h
        -- the tens alone would be zero
        have hzero : digits 10 (n / 10) = digits 10 0 := by
          rw [hd, ih _ hlt hd, digits_of_lt (by omega)]
          rfl
        have hdiv := digits_injective (by omega) (by omega) hzero
        omega

/-! ## Exactly the decimal numerals -/

def digit (c : Char) : Nat :=
  c.toNat - '0'.toNat

/-- The number that decimal digits stand for by their positions, the most significant first. -/
def value (s : List Char) : Nat :=
  Nat.ofDigits 10 (s.reverse.map digit)

theorem value_cons (c : Char) (s : List Char) :
    value (c :: s) = digit c * 10 ^ s.length + value s := by
  rw [value, List.reverse_cons, List.map_append, Nat.ofDigits_append, List.length_map,
    List.length_reverse, List.map_singleton, Nat.ofDigits_singleton, Nat.add_comm, Nat.mul_comm,
    value]

theorem value_append (s t : List Char) : value (s ++ t) = value s * 10 ^ t.length + value t := by
  rw [value, List.reverse_append, List.map_append, Nat.ofDigits_append, List.length_map,
    List.length_reverse, Nat.add_comm, Nat.mul_comm, value, value]

theorem value_replicate_zero (k : Nat) : value (List.replicate k '0') = 0 := by
  induction k with
  | zero => rfl
  | succ k ih =>
    rw [List.replicate_succ, value_cons, ih, show digit '0' = 0 from rfl, Nat.zero_mul]

theorem digitValue?_ten : digitValue? 10 c = some d ↔ c.isDigit ∧ d = digit c := by
  have hdigit : c.isDigit ↔ 48 ≤ c.toNat ∧ c.toNat ≤ 57 := by
    simp only [Char.isDigit, Bool.and_eq_true, decide_eq_true_iff]
    exact Iff.rfl
  unfold digitValue? digit
  rw [Option.filter_eq_some_iff]
  change _ ∧ decide (d < 10) = true ↔ _
  rw [decide_eq_true_iff]
  split
  · rename_i h
    rw [Option.some.injEq]
    have hle := (hdigit.mp h).2
    change c.toNat - 48 = d ∧ d < 10 ↔ _ ∧ d = c.toNat - 48
    constructor
    · intro hd
      exact ⟨h, hd.1.symm⟩
    · intro hd
      omega
  · -- letters stand for ten and more
    rename_i h
    refine iff_of_false ?_ fun hd => h hd.1
    intro hd
    split at hd
    · have hv := Option.some.inj hd.1
      omega
    · split at hd
      · have hv := Option.some.inj hd.1
        omega
      · cases hd.1

theorem extend?_ten : extend? 10 n s = some m ↔
    (∀ c ∈ s, c.isDigit) ∧ m = n * 10 ^ s.length + value s := by
  -- the digits so far are general, as each new one moves them up by one place
  induction s generalizing n with
  | nil =>
    have hvalue : n * 10 ^ ([] : List Char).length + value [] = n := by simp [value]
    rw [extend?, Option.some.injEq, hvalue, eq_comm]
    exact (and_iff_right (List.forall_mem_nil _)).symm
  | cons c s ih =>
    rw [extend?_cons_eq_some, List.forall_mem_cons, value_cons]
    have hstep : ∀ v, (10 * n + v) * 10 ^ s.length + value s =
        n * 10 ^ (s.length + 1) + (v * 10 ^ s.length + value s) := by
      intro v
      ring
    simp only [digitValue?_ten, ih]
    constructor
    · rintro ⟨v, ⟨hc, rfl⟩, hs, rfl⟩
      exact ⟨⟨hc, hs⟩, hstep _⟩
    · rintro ⟨⟨hc, hs⟩, rfl⟩
      exact ⟨_, ⟨hc, rfl⟩, hs, (hstep _).symm⟩

/-- What is read in radix ten is one or more digits, however many zeros are in front. -/
theorem read?_ten : read? 10 s = some m ↔
    s ≠ [] ∧ (∀ c ∈ s, c.isDigit) ∧ m = value s := by
  rw [read?]
  cases s with
  | nil => simp
  | cons c s =>
    rw [List.isEmpty_cons, if_neg Bool.false_ne_true, extend?_ten, Nat.zero_mul, Nat.zero_add]
    simp

theorem value_digits (n : Nat) : value (digits 10 n) = n :=
  (read?_ten.mp (read?_digits (by omega) (by omega) n)).2.2.symm

end Numeral

end UnitGraph.Text
