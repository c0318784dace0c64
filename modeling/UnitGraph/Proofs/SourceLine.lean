import UnitGraph.Proofs.Text
import UnitGraph.SourceLine

/-!
# Source lines read back

The written form of a source line has no blank and only one colon, so it is read as the line that it
was written for.
-/

namespace UnitGraph

namespace Text

theorem isBlank_of_isDigit {c : Char} (h : c.isDigit) : isBlank c = false := by
  have hbounds : 48 ≤ c.toNat ∧ c.toNat ≤ 57 := by
    simp only [Char.isDigit, Bool.and_eq_true, decide_eq_true_iff] at h
    exact h
  simp only [isBlank, blankRanges, List.any_cons, List.any_nil, Bool.or_false, Bool.or_eq_false_iff,
    Bool.and_eq_false_iff, decide_eq_false_iff_not]
  omega

/-- Trimming changes nothing where there is no blank. -/
theorem trim_eq_self {s : List Char} (h : ∀ c ∈ s, isBlank c = false) : trim s = s := by
  have hstart : ∀ t : List Char, (∀ c ∈ t, isBlank c = false) → trimStart t = t := by
    intro t ht
    cases t with
    | nil => rfl
    | cons c t => rw [trimStart, List.dropWhile_cons_of_neg (by simp [ht c])]
  rw [trim, hstart s h, hstart _ (by simpa using h), List.reverse_reverse]

end Text

namespace SourceLine

open Text

theorem number?_digits (n : UInt32) : number? (Numeral.digits 10 n.toNat) = some n := by
  have hread := Numeral.read?_digits (show 2 ≤ 10 by omega) (by omega) n.toNat
  unfold number?
  split
  · rename_i h
    have hplus := Numeral.isDigit_of_mem_digits (h ▸ List.mem_cons_self : '+' ∈ _)
    exact absurd hplus (by decide)
  · have hfits : n.toNat < UInt32.size := UInt32.toNat_lt n
    simp only [hread, bind, Option.bind_some, if_pos hfits, UInt32.ofNat_toNat]

theorem isBlank_of_mem_digits {c : Char} {n : Nat} (h : c ∈ Numeral.digits 10 n) :
    isBlank c = false :=
  isBlank_of_isDigit (Numeral.isDigit_of_mem_digits h)

theorem toList_text (x : SourceLine) : x.text.toList =
    Numeral.digits 10 x.file.toNat ++ ':' :: Numeral.digits 10 x.line.toNat := by
  simp [text, Numeral.decimal]

theorem ofChars?_text (x : SourceLine) : ofChars? x.text.toList = some x := by
  have hblank : ∀ c ∈ x.text.toList, isBlank c = false := by
    intro c hc
    rw [toList_text, List.mem_append, List.mem_cons] at hc
    obtain hc | rfl | hc := hc
    · exact isBlank_of_mem_digits hc
    · decide
    · exact isBlank_of_mem_digits hc
  -- the first colon is the one between the numbers, as digits are no colons
  have hspan : x.text.toList.span (· ≠ ':') =
      (Numeral.digits 10 x.file.toNat, ':' :: Numeral.digits 10 x.line.toNat) := by
    rw [toList_text]
    refine span_append (fun c hc => ?_) (by simp)
    have hdigit := Numeral.isDigit_of_mem_digits hc
    simp only [ne_eq, decide_not, Bool.not_eq_true', decide_eq_false_iff_not]
    rintro rfl
    exact absurd hdigit (by decide)
  have htrim : ∀ n, trim (Numeral.digits 10 n) = Numeral.digits 10 n := fun n =>
    trim_eq_self fun c hc => isBlank_of_mem_digits hc
  rw [ofChars?, trim_eq_self hblank, hspan]
  simp [htrim, number?_digits]

/-- Reading undoes writing. -/
theorem parse_text (x : SourceLine) : parse x.text = .ok x := by
  rw [parse, ofChars?_text]

end SourceLine

end UnitGraph
