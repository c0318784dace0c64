import UnitGraph.Proofs.Text
import UnitGraph.Proofs.Yaml.Scalar.Style

/-!
# Written scalars hold allowed characters only

Whatever is in a text, its written form may stand in a document: what may not is escaped.
-/

namespace UnitGraph.Yaml.Printer

open Text (Numeral.padded)

variable {c d : Char} {s : List Char} {margin : Nat} {lineStart : Bool}

/-! ## Indented lines -/

theorem isAllowed_indented (hs : ∀ c ∈ s, isAllowed c) :
    ∀ c ∈ indented margin lineStart s, isAllowed c := by
  induction s generalizing lineStart with
  | nil => exact List.forall_mem_nil _
  | cons b s ih =>
    rw [List.forall_mem_cons] at hs
    cases hb : isBreak b with
    | true =>
      rw [indented_break hb]
      exact List.forall_mem_cons.mpr ⟨hs.1, ih hs.2⟩
    | false =>
      have hspaces : ∀ c ∈ (if lineStart then List.replicate margin ' ' else []), isAllowed c := by
        split
        · intro c hc
          rw [List.eq_of_mem_replicate hc]
          rfl
        · exact List.forall_mem_nil _
      rw [indented_cons hb]
      exact List.forall_mem_append.mpr ⟨hspaces, List.forall_mem_cons.mpr ⟨hs.1, ih hs.2⟩⟩

/-! ## Quotes -/

theorem isAllowed_doubled (hs : ∀ c ∈ s, isAllowed c) : ∀ c ∈ doubled s, isAllowed c := by
  intro c hc
  rw [doubled, List.mem_flatMap] at hc
  rcases hc with ⟨d, hd, hc⟩
  split at hc
  · rw [List.mem_cons, List.mem_singleton, or_self] at hc
    rw [hc]
    rfl
  · rw [List.mem_singleton.mp hc]
    exact hs d hd

theorem isAllowed_single (hs : ∀ c ∈ s, isAllowed c) : ∀ c ∈ single margin s, isAllowed c := by
  have hquote : ∀ c ∈ ['\''], isAllowed c := List.forall_mem_singleton.mpr rfl
  exact List.forall_mem_cons.mpr ⟨rfl,
    isAllowed_indented (List.forall_mem_append.mpr ⟨isAllowed_doubled hs, hquote⟩)⟩

theorem isAllowed_escapeLetter (h : escapeLetter? c = some d) : isAllowed d := by
  unfold escapeLetter? at h
  split at h
  case h_15 => cases h
  all_goals
    cases h
    rfl

theorem isAllowed_padded (width n : Nat) :
    ∀ d ∈ (Numeral.padded 16 width n).map Char.toUpper, isAllowed d := by
  have hdigit : ∀ n < 16, isAllowed (Nat.digitChar n).toUpper := by decide
  intro d hd
  rw [List.mem_map] at hd
  rcases hd with ⟨b, hb, rfl⟩
  rw [Numeral.padded, List.mem_append] at hb
  cases hb with
  | inl hb =>
    rw [List.eq_of_mem_replicate hb]
    rfl
  | inr hb =>
    rcases Text.Numeral.exists_digitChar_of_mem_digits (by decide) hb with ⟨n, hn, rfl⟩
    exact hdigit n hn

theorem isAllowed_escapedCode (c : Char) : ∀ d ∈ escapedCode c, isAllowed d := by
  unfold escapedCode
  simp only
  refine List.forall_mem_cons.mpr ⟨?_, isAllowed_padded _ _⟩
  split
  · rfl
  · split <;> rfl

theorem isAllowed_escaped (c : Char) : ∀ d ∈ escaped c, isAllowed d := by
  unfold escaped
  split
  · rename_i letter hletter
    exact List.forall_mem_cons.mpr
      ⟨rfl, List.forall_mem_singleton.mpr (isAllowed_escapeLetter hletter)⟩
  · split
    · rename_i hprintable
      exact List.forall_mem_singleton.mpr (Style.isAllowed_of_isPrintable hprintable)
    · exact List.forall_mem_cons.mpr ⟨rfl, isAllowed_escapedCode c⟩

theorem isAllowed_double (s : List Char) : ∀ c ∈ double s, isAllowed c := by
  have hescaped : ∀ c ∈ s.flatMap escaped, isAllowed c := by
    intro c hc
    rcases List.mem_flatMap.mp hc with ⟨d, -, hc⟩
    exact isAllowed_escaped d c hc
  exact List.forall_mem_append.mpr
    ⟨List.forall_mem_cons.mpr ⟨rfl, hescaped⟩, List.forall_mem_singleton.mpr rfl⟩

/-! ## Literal scalars -/

theorem isAllowed_literal (hs : ∀ c ∈ s, isAllowed c) : ∀ c ∈ literal margin s, isAllowed c := by
  -- an indentation, a chomping sign, the lines, and a break if none ends them
  have hincrement : ∀ c ∈ (if s.head?.any (fun c => c = ' ' || isBreak c) then ['2'] else []),
      isAllowed c := by
    split
    · exact List.forall_mem_singleton.mpr rfl
    · exact List.forall_mem_nil _
  have hsign : ∀ c ∈ chompingSign (chomping s), isAllowed c := by
    cases chomping s with
    | strip => exact List.forall_mem_singleton.mpr rfl
    | clip => exact List.forall_mem_nil _
    | keep => exact List.forall_mem_singleton.mpr rfl
  have hend : ∀ c ∈ (if s.getLast?.any isBreak then [] else ['\n']), isAllowed c := by
    split
    · exact List.forall_mem_nil _
    · exact List.forall_mem_singleton.mpr rfl
  unfold literal
  simp only [List.forall_mem_append, List.forall_mem_cons]
  exact ⟨⟨⟨⟨rfl, hincrement⟩, hsign⟩, rfl, isAllowed_indented hs⟩, hend⟩

/-- Everything that is written for a text is allowed. -/
theorem isAllowed_text (s : List Char) : ∀ c ∈ text margin s, isAllowed c := by
  have hfeed : ∀ c ∈ ['\n'], isAllowed c := List.forall_mem_singleton.mpr rfl
  have hprintable : Style.needsEscapes s = false → ∀ c ∈ s, isAllowed c := fun h c hc =>
    Style.isAllowed_of_isPrintable ((Style.needsEscapes_eq_false.mp h).1 c hc)
  unfold text
  -- only double quotes take characters that are not printable, and they escape them
  cases hstyle : Style.ofText s with
  | plain =>
    have hs := Style.plain_of_plainHolds (Style.of_ofText_eq_plain hstyle).2
    exact List.forall_mem_append.mpr
      ⟨fun c hc => Style.isAllowed_of_isPrintable (hs.printable c hc), hfeed⟩
  | singleQuoted =>
    have hs := (Style.of_ofText_eq_singleQuoted hstyle).2
    rw [Style.singleHolds, Bool.and_eq_true, Bool.not_eq_true'] at hs
    exact List.forall_mem_append.mpr ⟨isAllowed_single (hprintable hs.1), hfeed⟩
  | doubleQuoted => exact List.forall_mem_append.mpr ⟨isAllowed_double s, hfeed⟩
  | literal =>
    have hs := (Style.of_ofText_eq_literal hstyle).2
    rw [Style.literalHolds, Bool.and_eq_true, Bool.not_eq_true'] at hs
    exact isAllowed_literal (hprintable hs.1)

end UnitGraph.Yaml.Printer
