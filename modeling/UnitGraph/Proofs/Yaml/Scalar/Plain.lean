import UnitGraph.Proofs.Yaml.Scalar.Style
import UnitGraph.Yaml.Scalar.Plain

/-!
# Plain scalars read back

A plain scalar is read up to the colon after a key or up to the end of its line, whichever follows
a text that plain scalars hold.
-/

namespace UnitGraph.Yaml

variable {c : Char} {s r t acc blanks : List Char} {p : Place} {g : Gap} {margin k : Nat}

namespace Plain

/-! ## Single characters -/

theorem scan_blank (hc : isBlank c) :
    scan false margin acc { blanks } (c :: s) p =
      scan false margin acc { blanks := c :: blanks } s (p.past c) := by
  rw [scan, if_pos hc]
  · rfl
  · intro _ hr
    rw [hr] at hc
    exact absurd hc (by decide)

theorem scan_break (hc : isBreak c) (hr : c ≠ '\r') :
    scan false margin acc g (c :: s) p = scan false margin acc (g.pushBreak c) s p.nextLine := by
  rw [scan, if_neg, if_pos hc]
  · intro h
    rw [not_isBreak_of_isBlank h] at hc
    cases hc
  · exact fun _ h => absurd h hr

/-- Any other character belongs to the scalar unless the scalar ends there. -/
theorem scan_cons (hblank : isBlank c = false) (hbreak : isBreak c = false) :
    scan false margin acc g (c :: s) p =
      if (acc.isEmpty || !g.isEmpty) && leaves false margin g (c :: s) p then
        some ⟨acc.reverse, ⟨c :: s, p⟩, g.broken⟩
      else if ends false (c :: s) then
        some ⟨acc.reverse, ⟨c :: s, p⟩, g.broken⟩
      else
        scan false margin (c :: (g.text ++ acc)) .none s (p.past c) := by
  rw [scan, hblank, hbreak]
  · rfl
  · exact fun _ h => absurd h (ne_carriageReturn hbreak)

/-! ## Texts on one line -/

structure Tail (s : List Char) : Prop where
  onLine : ∀ c ∈ s, isBreak c = false
  noKey : Style.hasKeyMark s = false
  noComment : Style.hasPair (fun a b => isBlank a && b = '#') s = false
  last : ∀ c ∈ s.getLast?, isBlank c = false

theorem Tail.of_cons (h : Tail (c :: s)) : Tail s where
  onLine d hd := h.onLine d (List.mem_cons_of_mem _ hd)
  noKey := (Bool.or_eq_false_iff.mp h.noKey).2
  noComment := Style.hasPair_of_cons h.noComment
  last d hd := h.last d (by rw [List.getLast?_cons, hd]; rfl)

theorem Tail.not_ends (h : Tail (c :: s)) : ends false (c :: (s ++ t)) = false := by
  have hkey := (Bool.or_eq_false_iff.mp h.noKey).1
  rw [ends.eq_def]
  split
  · rename_i s' heq
    cases heq
    cases s with
    | nil => exact absurd hkey (by decide)
    | cons d s => exact hkey
  · rfl
  · rename_i heq
    cases heq

/-- A blank is followed by something, and not by a comment. -/
theorem Tail.exists_head (h : Tail (c :: s)) (hc : isBlank c) : ∃ d ∈ s.head?, d ≠ '#' := by
  cases s with
  | nil =>
    have hlast := h.last c rfl
    rw [hc] at hlast
    cases hlast
  | cons d s =>
    refine ⟨d, rfl, ?_⟩
    have hpair := Style.not_of_hasPair h.noComment (b := d) rfl
    rw [hc] at hpair
    simpa using hpair

/-- Inside the scalar a gap on its line never ends it: the line is indented far enough, and no
comment follows. -/
theorem not_leaves (hcolumn : margin ≤ p.column) (hline : 0 < p.column)
    (hblanks : blanks ≠ [] → c ≠ '#') (hacc : acc ≠ []) :
    ((acc.isEmpty || !Gap.isEmpty { blanks }) && leaves false margin { blanks } (c :: s) p) =
      false := by
  cases blanks with
  | nil => simp [Gap.isEmpty, hacc]
  | cons b blanks =>
    have hc := hblanks (List.cons_ne_nil b blanks)
    simp [leaves, hc, Nat.not_lt.mpr hcolumn, Nat.pos_iff_ne_zero.mp hline]

/-- All of the text is read, and the blanks before it with it. -/
theorem scan_append (hcolumn : margin ≤ p.column) (hline : 0 < p.column) (hacc : acc ≠ [])
    (h : Tail s) (hblanks : blanks ≠ [] → ∃ c ∈ s.head?, c ≠ '#') :
    scan false margin acc { blanks } (s ++ t) p =
      scan false margin (s.reverse ++ (blanks ++ acc)) .none t (s.foldl Place.past p) := by
  -- Blanks are kept back until it is known what follows them; a comment would end the text.
  induction s generalizing acc blanks p with
  | nil =>
    cases blanks with
    | nil => rfl
    | cons b blanks =>
      rcases hblanks (List.cons_ne_nil b blanks) with ⟨c, hc, -⟩
      cases hc
  | cons c s ih =>
    have hcolumn' : margin ≤ (p.past c).column := Nat.le_succ_of_le hcolumn
    rw [List.cons_append, List.foldl_cons, List.reverse_cons, List.append_assoc]
    cases hc : isBlank c with
    | true =>
      rw [scan_blank hc, ih hcolumn' (Nat.succ_pos _) hacc h.of_cons]
      · rfl
      · exact fun _ => h.exists_head hc
    | false =>
      rw [scan_cons hc (h.onLine c List.mem_cons_self), if_neg, h.not_ends,
        if_neg Bool.false_ne_true]
      · exact ih hcolumn' (Nat.succ_pos _) (List.cons_ne_nil _ _) h.of_cons fun h => absurd rfl h
      · rw [Bool.not_eq_true]
        refine not_leaves hcolumn hline (fun hne => ?_) hacc
        rcases hblanks hne with ⟨d, hd, hne'⟩
        cases hd
        exact hne'

/-! ## Whole scalars -/

theorem tail_of_plain (h : Style.Plain s) : Tail s where
  onLine := h.onLine
  noKey := h.noKey
  noComment := h.noComment
  last c hc := by
    rw [← Bool.not_eq_true]
    intro hblank
    have hspace := Style.eq_space_of_isBlank (h.printable c (List.mem_of_getLast? hc)) hblank
    rw [hspace] at hc
    exact h.last hc

theorem scan_plain (h : Style.Plain s) (hne : s ≠ []) (hcolumn : margin ≤ p.column + 1)
    (hmark : p.column = 0 → atDocumentMark (s ++ t) = false) :
    scan false margin [] .none (s ++ t) p =
      scan false margin s.reverse .none t (s.foldl Place.past p) := by
  cases s with
  | nil => exact absurd rfl hne
  | cons c s =>
    have htail := tail_of_plain h
    -- the first character neither begins a comment nor leaves the block
    have hleaves : leaves false margin .none (c :: (s ++ t)) p = false := by
      have hcomment : c ≠ '#' := by
        rintro rfl
        exact absurd h.not_isIndicator_head (by decide)
      simpa [leaves, Gap.isEmpty, Gap.none, hcomment] using hmark
    rw [List.cons_append, scan_cons h.not_isBlank_head (h.onLine c List.mem_cons_self), hleaves,
      Bool.and_false, if_neg Bool.false_ne_true, htail.not_ends, if_neg Bool.false_ne_true,
      List.reverse_cons]
    exact scan_append hcolumn (Nat.succ_pos _) (List.cons_ne_nil _ _) htail.of_cons
      fun h => absurd rfl h

/-- A key is read up to its colon. -/
theorem read_key (h : Style.Plain s) (hne : s ≠ []) (hcolumn : margin ≤ p.column + 1)
    (hmark : p.column = 0 → atDocumentMark (s ++ ':' :: t) = false) (ht : atGap t) :
    read false margin ⟨s ++ ':' :: t, p⟩ =
      some ⟨s, ⟨':' :: t, s.foldl Place.past p⟩, false⟩ := by
  rw [read, scan_plain h hne hcolumn hmark, scan_cons (by decide) (by decide), if_neg, ends,
    if_pos ht, List.reverse_reverse]
  · rfl
  · simp [hne, Gap.isEmpty, Gap.none]

theorem scan_indent (hg : g.broken) :
    scan false margin acc g (List.replicate k ' ' ++ r) p =
      scan false margin acc g r (p.advance k) := by
  induction k generalizing p with
  | zero => rfl
  | succ k ih =>
    rw [List.replicate_succ, List.cons_append, scan, if_pos (by decide), if_neg (by simp),
      Gap.pushBlank, if_pos hg, Place.advance_succ, ← ih]
    · rfl
    · exact fun _ h => absurd h (by decide)

/-- A scalar is read up to the end of its line when the next one is not indented far enough. -/
theorem read_line (h : Style.Plain s) (hne : s ≠ []) (hcolumn : margin ≤ p.column)
    (hline : 0 < p.column) (hk : k < margin) (hr : ∀ c ∈ r.head?, c.isAlpha) :
    read false margin ⟨s ++ '\n' :: (List.replicate k ' ' ++ r), p⟩ =
      some ⟨s, ⟨r, (s.foldl Place.past p).nextLine.advance k⟩, true⟩ := by
  rw [read, scan_plain h hne (by omega) fun h0 => absurd h0 (Nat.pos_iff_ne_zero.mp hline),
    scan_break (by decide) (by decide), scan_indent rfl]
  cases r with
  | nil =>
    rw [scan, List.reverse_reverse]
    rfl
  | cons c r =>
    have hc := hr c rfl
    rw [scan_cons (not_isBlank_of_isAlpha hc) (not_isBreak_of_isAlpha hc), if_pos,
      List.reverse_reverse]
    · rfl
    · -- the next line stands left of the margin
      simp [leaves, Gap.isEmpty, Gap.pushBreak, Gap.none, Place.advance, Place.nextLine, hk]

end Plain

end UnitGraph.Yaml
