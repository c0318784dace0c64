import Mathlib.Data.List.Basic
import Mathlib.Data.List.TakeWhile
import UnitGraph.Proofs.SourceLine

/-!
# Which texts name a source line

A text names a source line when, between blanks, it is a number or two numbers around a colon with
blanks around them.  A number has digits and may have a plus sign, and its value takes 32 bits,
however many zeros stand in front.  Reading accepts these texts and no others.
-/

namespace UnitGraph

/-! ## Trimming -/

namespace Text

def Blank (s : List Char) : Prop :=
  ∀ c ∈ s, isBlank c

variable {before s after : List Char}

theorem exists_trimStart (s : List Char) : ∃ before, Blank before ∧ s = before ++ trimStart s := by
  refine ⟨s.takeWhile isBlank, fun c hc => List.mem_takeWhile_imp hc, ?_⟩
  rw [trimStart, List.takeWhile_append_dropWhile]

/-- Trimming takes off blanks at either end. -/
theorem exists_trim (s : List Char) :
    ∃ before after, Blank before ∧ Blank after ∧ s = before ++ trim s ++ after := by
  rcases exists_trimStart s with ⟨before, hbefore, hs⟩
  rcases exists_trimStart (trimStart s).reverse with ⟨after, hafter, hrest⟩
  refine ⟨before, after.reverse, hbefore, fun c hc => hafter c (List.mem_reverse.mp hc), ?_⟩
  have hstart : trimStart s = trim s ++ after.reverse := by
    rw [trim, ← List.reverse_append, ← hrest, List.reverse_reverse]
  rw [List.append_assoc, ← hstart]
  exact hs

theorem trimStart_append (hbefore : Blank before) (hs : ∀ c ∈ s.head?, isBlank c = false) :
    trimStart (before ++ s) = s := by
  rw [trimStart, List.dropWhile_append_of_pos hbefore]
  cases s with
  | nil => rfl
  | cons c s => rw [List.dropWhile_cons_of_neg (by simp [hs c rfl])]

/-- It takes off all of them, but nothing between two characters that are not blank. -/
theorem trim_append (hbefore : Blank before) (hafter : Blank after)
    (hhead : ∀ c ∈ s.head?, isBlank c = false) (hlast : ∀ c ∈ s.getLast?, isBlank c = false) :
    trim (before ++ s ++ after) = s := by
  have hreverse : Blank after.reverse := fun c hc => hafter c (List.mem_reverse.mp hc)
  -- nothing but blanks is a case of its own, since both ends then trim the same characters
  cases s with
  | nil =>
    have hblank : Blank (before ++ [] ++ after) := by
      intro c hc
      rw [List.append_nil, List.mem_append] at hc
      exact hc.elim (hbefore c) (hafter c)
    have hnil := trimStart_append (s := []) hblank fun c hc => nomatch hc
    rw [List.append_nil] at hnil
    rw [trim, hnil]
    rfl
  | cons c s =>
    have hhead' : ∀ d ∈ (c :: s ++ after).head?, isBlank d = false := hhead
    have hlast' : ∀ d ∈ (c :: s).reverse.head?, isBlank d = false := by
      rwa [List.head?_reverse]
    rw [trim, List.append_assoc, trimStart_append hbefore hhead', List.reverse_append,
      trimStart_append hreverse hlast', List.reverse_reverse]

end Text

namespace SourceLine

open Text

inductive WritesNumber : List Char → UInt32 → Prop
  | unsigned {digits : List Char} {n : UInt32} (hne : digits ≠ [])
    (hdigits : ∀ c ∈ digits, c.isDigit) (hvalue : Numeral.value digits = n.toNat) :
    WritesNumber digits n
  | signed {digits : List Char} {n : UInt32} (hne : digits ≠ [])
    (hdigits : ∀ c ∈ digits, c.isDigit) (hvalue : Numeral.value digits = n.toNat) :
    WritesNumber ('+' :: digits) n

/-- The source line that a text names: between blanks, a number for a line of file 0, or two numbers
around a colon, with blanks around each, for a line of a file. -/
inductive Names : List Char → SourceLine → Prop
  | bare {before number after : List Char} {n : UInt32} (hbefore : Blank before)
    (hnumber : WritesNumber number n) (hafter : Blank after) :
    Names (before ++ number ++ after) ⟨0, n⟩
  | pair {before file ahead behind line after : List Char} {f l : UInt32} (hbefore : Blank before)
    (hfile : WritesNumber file f) (hahead : Blank ahead) (hbehind : Blank behind)
    (hline : WritesNumber line l) (hafter : Blank after) :
    Names (before ++ (file ++ ahead ++ ':' :: (behind ++ line)) ++ after) ⟨f, l⟩

/-! ## Numbers -/

variable {s number : List Char} {n : UInt32} {x : SourceLine}

theorem writesNumber_of_read? {digits : List Char} {m : Nat}
    (h : Numeral.read? 10 digits = some m) (hm : m < UInt32.size) : digits ≠ [] ∧
      (∀ c ∈ digits, c.isDigit) ∧ Numeral.value digits = (UInt32.ofNat m).toNat := by
  rcases Numeral.read?_ten.mp h with ⟨hne, hdigits, hvalue⟩
  refine ⟨hne, hdigits, ?_⟩
  rw [UInt32.toNat_ofNat_of_lt' hm, hvalue]

/-- The digits of a number are read with or without the sign. -/
theorem number?_eq_some : number? s = some n ↔ WritesNumber s n := by
  have hread : ∀ {digits : List Char}, digits ≠ [] → (∀ c ∈ digits, c.isDigit) →
      Numeral.value digits = n.toNat → Numeral.read? 10 digits = some n.toNat :=
    fun hne hdigits hvalue => Numeral.read?_ten.mpr ⟨hne, hdigits, hvalue.symm⟩
  -- the number is below the bound of its type, so no written value is lost
  have hfits : n.toNat < UInt32.size := UInt32.toNat_lt n
  constructor
  · intro h
    unfold number? at h
    rcases Option.bind_eq_some_iff.mp h with ⟨m, hm, hn⟩
    split at hn
    · rename_i hlt
      cases hn
      split at hm
      · rcases writesNumber_of_read? hm hlt with ⟨hne, hdigits, hvalue⟩
        exact .signed hne hdigits hvalue
      · rcases writesNumber_of_read? hm hlt with ⟨hne, hdigits, hvalue⟩
        exact .unsigned hne hdigits hvalue
    · cases hn
  · intro h
    cases h with
    | signed hne hdigits hvalue =>
      rw [number?, hread hne hdigits hvalue]
      simp only [bind, Option.bind_some, if_pos hfits, UInt32.ofNat_toNat]
    | unsigned hne hdigits hvalue =>
      unfold number?
      split
      · have hplus := hdigits '+' List.mem_cons_self
        exact absurd hplus (by decide)
      · simp only [hread hne hdigits hvalue, bind, Option.bind_some, if_pos hfits,
          UInt32.ofNat_toNat]

theorem WritesNumber.ne_nil (h : WritesNumber number n) : number ≠ [] := by
  cases h with
  | unsigned hne => exact hne
  | signed => exact List.cons_ne_nil _ _

/-- There is neither a blank nor a colon in a number. -/
theorem WritesNumber.of_mem (h : WritesNumber number n) {c : Char} (hc : c ∈ number) :
    isBlank c = false ∧ c ≠ ':' := by
  have hdigit : ∀ {c : Char}, c.isDigit → isBlank c = false ∧ c ≠ ':' := by
    intro c hc
    refine ⟨isBlank_of_isDigit hc, ?_⟩
    rintro rfl
    exact absurd hc (by decide)
  cases h with
  | unsigned _ hdigits => exact hdigit (hdigits c hc)
  | signed _ hdigits =>
    rcases List.mem_cons.mp hc with rfl | hc
    · exact ⟨by decide, by decide⟩
    · exact hdigit (hdigits c hc)

theorem WritesNumber.trim_eq (h : WritesNumber number n) {before after : List Char}
    (hbefore : Blank before) (hafter : Blank after) : trim (before ++ number ++ after) = number :=
  trim_append hbefore hafter (fun _ hc => (h.of_mem (List.mem_of_mem_head? hc)).1)
    fun _ hc => (h.of_mem (List.mem_of_getLast? hc)).1

theorem blank_nil : Blank [] := fun _ hc => nomatch hc

theorem not_mem_colon (h : Blank s) : ':' ∉ s := by
  intro hc
  exact absurd (h ':' hc) (by decide)

/-! ## Texts -/

/-- The blanks at the outer ends of the two parts belong to those around all of the text. -/
theorem names_pair {before file line after : List Char} {f l : UInt32} (hbefore : Blank before)
    (hafter : Blank after) (hf : number? (trim file) = some f) (hl : number? (trim line) = some l) :
    Names (before ++ (file ++ ':' :: line) ++ after) ⟨f, l⟩ := by
  rcases exists_trim file with ⟨before', ahead, hbefore', hahead, hfile⟩
  rcases exists_trim line with ⟨behind, after', hbehind, hafter', hline⟩
  have hall : before ++ (file ++ ':' :: line) ++ after =
      before ++ before' ++ (trim file ++ ahead ++ ':' :: (behind ++ trim line)) ++
        (after' ++ after) := by
    nth_rewrite 1 [hfile, hline]
    simp only [List.append_assoc, List.cons_append]
  rw [hall]
  refine .pair ?_ (number?_eq_some.mp hf) hahead hbehind (number?_eq_some.mp hl) ?_
  · intro c hc
    exact (List.mem_append.mp hc).elim (hbefore c) (hbefore' c)
  · intro c hc
    exact (List.mem_append.mp hc).elim (hafter' c) (hafter c)

theorem names_of_ofChars? (h : ofChars? s = some x) : Names s x := by
  rcases exists_trim s with ⟨before, after, hbefore, hafter, hs⟩
  have hspan : trim s = (trim s).takeWhile (· ≠ ':') ++ (trim s).dropWhile (· ≠ ':') :=
    List.takeWhile_append_dropWhile.symm
  have hcolon := List.head?_dropWhile_not (· ≠ ':') (trim s)
  unfold ofChars? at h
  simp only [List.span_eq_takeWhile_dropWhile] at h
  -- the parts before and after the first colon, of which only the above is used
  generalize (trim s).takeWhile (· ≠ ':') = file at h hspan
  generalize (trim s).dropWhile (· ≠ ':') = rest at h hspan hcolon
  rw [hs, hspan]
  cases rest with
  | nil =>
    rcases Option.map_eq_some_iff.mp h with ⟨n, hn, rfl⟩
    rw [List.append_nil]
    exact .bare hbefore (number?_eq_some.mp hn) hafter
  | cons c line =>
    rcases Option.bind_eq_some_iff.mp h with ⟨f, hf, h⟩
    rcases Option.bind_eq_some_iff.mp h with ⟨l, hl, h⟩
    cases h
    obtain rfl : c = ':' := by simpa using hcolon
    exact names_pair hbefore hafter hf hl

theorem trim_pair {before file ahead behind line after : List Char} {f l : UInt32}
    (hbefore : Blank before) (hfile : WritesNumber file f) (hline : WritesNumber line l)
    (hafter : Blank after) :
    trim (before ++ (file ++ ahead ++ ':' :: (behind ++ line)) ++ after) =
      file ++ ahead ++ ':' :: (behind ++ line) := by
  refine trim_append hbefore hafter (fun c hc => ?_) fun c hc => ?_
  · rw [List.append_assoc, List.head?_append_of_ne_nil _ hfile.ne_nil] at hc
    exact (hfile.of_mem (List.mem_of_mem_head? hc)).1
  · rw [List.append_cons, ← List.append_assoc,
      List.getLast?_append_of_ne_nil _ hline.ne_nil] at hc
    exact (hline.of_mem (List.mem_of_getLast? hc)).1

/-- The colon between the parts is the first one. -/
theorem span_pair {file ahead rest : List Char} {f : UInt32} (hfile : WritesNumber file f)
    (hahead : Blank ahead) :
    (file ++ ahead ++ ':' :: rest).span (· ≠ ':') = (file ++ ahead, ':' :: rest) := by
  refine span_append (fun c hc => decide_eq_true ?_) (by simp)
  rcases List.mem_append.mp hc with hc | hc
  · exact (hfile.of_mem hc).2
  · rintro rfl
    exact not_mem_colon hahead hc

theorem ofChars?_of_names (h : Names s x) : ofChars? s = some x := by
  cases h with
  | @bare before number after n hbefore hnumber hafter =>
    have hspan : number.span (· ≠ ':') = (number, []) := by
      have hs := span_append (p := (· ≠ ':')) (s := number) (t := [])
        (fun c hc => decide_eq_true (hnumber.of_mem hc).2) fun c hc => nomatch hc
      rwa [List.append_nil] at hs
    rw [ofChars?, hnumber.trim_eq hbefore hafter, hspan]
    exact Option.map_eq_some_iff.mpr ⟨n, number?_eq_some.mpr hnumber, rfl⟩
  | @pair before file ahead behind line after f l hbefore hfile hahead hbehind hline hafter =>
    -- blanks at the ends are trimmed first; those around the colon stay for the parts
    have hf := hfile.trim_eq blank_nil hahead
    have hl := hline.trim_eq hbehind blank_nil
    rw [List.nil_append] at hf
    rw [List.append_nil] at hl
    rw [ofChars?, trim_pair hbefore hfile hline hafter, span_pair hfile hahead]
    simp only [hf, hl, number?_eq_some.mpr hfile, number?_eq_some.mpr hline]
    rfl

theorem ofChars?_eq_some : ofChars? s = some x ↔ Names s x :=
  ⟨names_of_ofChars?, ofChars?_of_names⟩

/-- A text is read as the source line that it names, and refused as it was given when it names none.
What is written for a source line names that line; so the text of a line that was read is read as
the same line and written as the same text. -/
theorem parse_grammar :
    (∀ s x, parse s = .ok x ↔ Names s.toList x) ∧
    (∀ s e, parse s = .error e ↔ (∀ x, ¬Names s.toList x) ∧ e = ⟨s⟩) ∧
    (∀ x, parse x.text = .ok x) ∧
    ∀ s x, parse s = .ok x →
      parse x.text = .ok x ∧ ∀ y, parse x.text = .ok y → y.text = x.text := by
  refine ⟨fun s x => ?_, fun s e => ?_, parse_text, fun s x _ => ⟨parse_text x, fun y hy => ?_⟩⟩
  · rw [← ofChars?_eq_some, parse]
    cases ofChars? s.toList <;> simp
  · simp only [← ofChars?_eq_some]
    rw [parse]
    cases ofChars? s.toList with
    | none => simp [eq_comm]
    | some x => simp
  · -- written and read again, a position is the same one
    rw [parse_text, Except.ok.injEq] at hy
    rw [hy]

end SourceLine

end UnitGraph
