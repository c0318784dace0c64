import UnitGraph.Proofs.Text
import UnitGraph.Proofs.Yaml.Scalar.Style
import UnitGraph.Yaml.Scalar.Quoted

/-!
# Quoted scalars read back

Reading never looks back: what has been read is the text so far and the gap after it, and each
written character adds itself to the two together.
-/

namespace UnitGraph.Yaml.Quoted

open Text

variable {single : Bool} {c d : Char} {s r t acc : List Char} {p : Place} {g : Gap}
  {margin k n : Nat}

/-! ## Blanks and line ends -/

theorem scan_blank (hc : isBlank c) :
    scan single acc g none (c :: s) p = scan single acc (g.pushBlank c) none s p.advance := by
  rw [scan, if_pos hc]
  intro _ hr
  rw [hr] at hc
  exact absurd hc (by decide)

theorem scan_break (hc : isBreak c) (hr : c ≠ '\r') :
    scan single acc g none (c :: s) p = scan single acc (g.pushBreak c) none s p.nextLine := by
  rw [scan, if_neg, if_pos hc]
  · intro h
    rw [not_isBreak_of_isBlank h] at hc
    cases hc
  · exact fun _ h => absurd h hr

theorem scan_indent (hg : g.broken) :
    scan single acc g none (List.replicate k ' ' ++ s) p =
      scan single acc g none s (p.advance k) := by
  induction k generalizing p with
  | zero => rfl
  | succ k ih =>
    rw [List.replicate_succ, List.cons_append, scan_blank (by decide), Gap.pushBlank, if_pos hg,
      ih, ← Place.advance_succ]

/-! ## Single quotes -/

theorem scan_char (hblank : isBlank c = false) (hbreak : isBreak c = false) (hquote : c ≠ '\'')
    (hline : 0 < p.column) :
    scan true acc g none (c :: s) p =
      scan true (c :: (g.text ++ acc)) .none none s (p.past c) := by
  rw [scan, hblank, hbreak]
  · simp [Nat.pos_iff_ne_zero.mp hline, hquote]
  · exact fun _ h => absurd h (ne_carriageReturn hbreak)

theorem scan_quotes (hline : 0 < p.column) :
    scan true acc g none ('\'' :: '\'' :: s) p =
      scan true ('\'' :: (g.text ++ acc)) .none none s (p.advance 2) := by
  rw [scan]
  · simp [isBlank, isBreak, Nat.pos_iff_ne_zero.mp hline]
  · exact fun _ h => absurd h (by decide)

theorem scan_closing (hline : 0 < p.column) (ht : t.head? ≠ some '\'') :
    scan true acc g none ('\'' :: t) p = some ((g.text ++ acc).reverse, ⟨t, p.advance⟩) := by
  rw [scan]
  · cases t with
    | nil => simp [isBlank, isBreak, Nat.pos_iff_ne_zero.mp hline]
    | cons d t =>
      have hd : d ≠ '\'' := fun hd => ht (congrArg some hd)
      simp [isBlank, isBreak, Nat.pos_iff_ne_zero.mp hline, hd]
  · exact fun _ h => absurd h (by decide)

structure Single (s : List Char) : Prop where
  printable : ∀ c ∈ s, Style.isPrintable c
  noFeed : '\n' ∉ s
  before : Style.hasPair (fun a b => a = ' ' && isBreak b) s = false
  after : Style.hasPair (fun a b => isBreak a && b = ' ') s = false

theorem Single.of_cons (h : Single (c :: s)) : Single s where
  printable d hd := h.printable d (List.mem_cons_of_mem _ hd)
  noFeed hd := h.noFeed (List.mem_cons_of_mem _ hd)
  before := Style.hasPair_of_cons h.before
  after := Style.hasPair_of_cons h.after

/-- A gap at a place fits the text that follows: no blank is before a line end, and no line starts
with one. Lines that go on do so after their first column. -/
structure Fits (g : Gap) (p : Place) (s : List Char) : Prop where
  before : g.broken = false → g.blanks ≠ [] → ∀ c ∈ s.head?, isBreak c = false
  after : g.broken → g.first ≠ some '\n' ∧ s.head? ≠ some ' '
  onLine : g.broken = false → 0 < p.column

theorem Fits.none (hp : 0 < p.column) : Fits .none p s where
  before _ h := absurd rfl h
  after h := nomatch h
  onLine _ := hp

theorem Fits.pushBlank (h : Single (' ' :: s)) (hg : g.broken = false) :
    Fits (g.pushBlank ' ') p.advance s where
  before _ _ c hc := by simpa using Style.not_of_hasPair h.before hc
  after h := by simp [Gap.pushBlank, hg] at h
  onLine _ := Nat.succ_pos _

theorem broken_pushBreak : (g.pushBreak c).broken = true := by
  rw [Gap.pushBreak]
  split
  · assumption
  · rfl

theorem Fits.pushBreak (hg : Fits g p (c :: s)) (h : Single (c :: s)) (hc : isBreak c) :
    Fits (g.pushBreak c) p.nextLine s where
  before h := by
    rw [broken_pushBreak] at h
    cases h
  after _ := by
    refine ⟨?_, fun hs => ?_⟩
    · rw [Gap.pushBreak, Style.breakText_of_isPrintable (h.printable c List.mem_cons_self) hc]
      split
      · rename_i hbroken
        exact (hg.after hbroken).1
      · intro hfeed
        cases hfeed
        exact h.noFeed List.mem_cons_self
    · -- a single-quoted text has no blank behind a break
      have := Style.not_of_hasPair h.after hs
      simp [hc] at this
  onLine h := by
    rw [broken_pushBreak] at h
    cases h

theorem text_pushBlank (hg : g.broken = false) : (g.pushBlank c).text = c :: g.text := by
  simp [Gap.pushBlank, Gap.text, hg]

theorem text_pushBreak (hg : Fits g p (c :: s)) (h : Single (c :: s)) (hc : isBreak c) :
    (g.pushBreak c).text = c :: g.text := by
  have hfeed : c ≠ '\n' := fun hc => h.noFeed (hc ▸ List.mem_cons_self)
  rw [Gap.pushBreak, Style.breakText_of_isPrintable (h.printable c List.mem_cons_self) hc]
  cases hbroken : g.broken with
  | true => simp [Gap.text, hbroken, (hg.after hbroken).1]
  | false =>
    have hblanks : g.blanks = [] := by
      apply Decidable.byContradiction
      intro hne
      have := hg.before hbroken hne c rfl
      rw [hc] at this
      cases this
    simp [Gap.text, hbroken, hfeed, hblanks]

/-- The indentation of a line is no part of the gap. -/
theorem exists_scan_indented (acc : List Char) (hmargin : 0 < margin) (hg : Fits g p s) :
    ∃ q, 0 < Place.column q ∧ ∀ t, scan true acc g none
        ((if g.broken then List.replicate margin ' ' else []) ++ t) p =
      scan true acc g none t q := by
  cases hbroken : g.broken with
  | true =>
    refine ⟨p.advance margin, Nat.lt_add_left p.column hmargin, fun t => ?_⟩
    rw [if_pos rfl, scan_indent hbroken]
  | false => exact ⟨p, hg.onLine hbroken, fun t => rfl⟩

def Takes (margin : Nat) (c : Char) (acc : List Char) (g : Gap) (p : Place) (acc' : List Char)
    (g' : Gap) (q : Place) : Prop :=
  ∀ u t, scan true acc g none (Printer.indented margin g.broken
      ((if c = '\'' then ['\'', '\''] else [c]) ++ u) ++ t) p =
    scan true acc' g' none (Printer.indented margin g'.broken u ++ t) q

theorem takes_break (hbreak : isBreak c) (hc : Style.isPrintable c) :
    Takes margin c acc g p acc (g.pushBreak c) p.nextLine := by
  have hquote : c ≠ '\'' := by
    rintro rfl
    exact absurd hbreak (by decide)
  intro u t
  rw [if_neg hquote, List.singleton_append, Printer.indented_break hbreak, List.cons_append,
    scan_break hbreak (Style.ne_carriageReturn_of_isPrintable hc), broken_pushBreak]

theorem takes_space (hg : g.broken = false) :
    Takes margin ' ' acc g p acc (g.pushBlank ' ') p.advance := by
  have hg' : (g.pushBlank ' ').broken = false := by simp [Gap.pushBlank, hg]
  intro u t
  rw [if_neg (by decide), List.singleton_append, Printer.indented_cons (by decide), hg,
    if_neg Bool.false_ne_true, List.nil_append, List.cons_append, scan_blank (by decide), hg']

theorem exists_takes_visible (hmargin : 0 < margin) (hg : Fits g p s) (hblank : isBlank c = false)
    (hbreak : isBreak c = false) :
    ∃ q, 0 < Place.column q ∧ Takes margin c acc g p (c :: (g.text ++ acc)) .none q := by
  rcases exists_scan_indented acc hmargin hg with ⟨q, hq, hscan⟩
  -- a quote is doubled, everything else stands for itself
  by_cases hquote : c = '\''
  · refine ⟨q.advance 2, Nat.lt_add_left _ (by decide), fun u t => ?_⟩
    rw [if_pos hquote, hquote, List.cons_append, Printer.indented_cons (by decide),
      List.append_assoc, hscan, List.singleton_append, Printer.indented_cons (by decide),
      if_neg Bool.false_ne_true, List.nil_append, List.cons_append, List.cons_append,
      scan_quotes hq]
    rfl
  · refine ⟨q.past c, Nat.succ_pos _, fun u t => ?_⟩
    rw [if_neg hquote, List.singleton_append, Printer.indented_cons hbreak, List.append_assoc,
      hscan, List.cons_append, scan_char hblank hbreak hquote hq]
    rfl

/-- What is written for one character adds it to what has been read. -/
theorem exists_takes (acc : List Char) (hmargin : 0 < margin) (h : Single (c :: s))
    (hg : Fits g p (c :: s)) :
    ∃ acc' g' q, Fits g' q s ∧ g'.text ++ acc' = c :: (g.text ++ acc) ∧
      Takes margin c acc g p acc' g' q := by
  have hprintable := h.printable c List.mem_cons_self
  -- a break and a space wait in the gap, anything else brings the gap into the text
  cases hbreak : isBreak c with
  | true =>
    refine ⟨acc, _, _, hg.pushBreak h hbreak, ?_, takes_break hbreak hprintable⟩
    rw [text_pushBreak hg h hbreak, List.cons_append]
  | false =>
    cases hblank : isBlank c with
    | true =>
      have hspace := Style.eq_space_of_isBlank hprintable hblank
      rw [hspace] at h hg ⊢
      have hbroken : g.broken = false := by
        rw [← Bool.not_eq_true]
        exact fun hbroken => (hg.after hbroken).2 rfl
      refine ⟨acc, _, _, .pushBlank h hbroken, ?_, takes_space hbroken⟩
      rw [text_pushBlank hbroken, List.cons_append]
    | false =>
      rcases exists_takes_visible hmargin hg hblank hbreak with ⟨q, hq, htakes⟩
      exact ⟨_, .none, q, .none hq, rfl, htakes⟩

theorem scan_single (done : List Char) (hmargin : 0 < margin) (h : Single s) (hg : Fits g p s)
    (ht : t.head? ≠ some '\'') (hdone : g.text ++ acc = done.reverse) :
    ∃ q, scan true acc g none
        (Printer.indented margin g.broken (Printer.doubled s ++ ['\'']) ++ t) p =
      some (done ++ s, ⟨t, q⟩) := by
  -- the text so far with the gap behind it is what has been read, in reverse
  induction s generalizing acc g p done with
  | nil =>
    rcases exists_scan_indented acc hmargin hg with ⟨q, hq, hscan⟩
    refine ⟨q.advance, ?_⟩
    change scan true acc g none (Printer.indented margin g.broken ['\''] ++ t) p = _
    rw [Printer.indented_cons (by decide), List.append_assoc, hscan, List.append_nil,
      ← List.reverse_reverse done, ← hdone]
    exact scan_closing hq ht
  | cons c s ih =>
    rcases exists_takes acc hmargin h hg with ⟨acc', g', p', hg', htext, hscan⟩
    have hdone' : g'.text ++ acc' = (done ++ [c]).reverse := by
      rw [htext, hdone, List.reverse_append]
      rfl
    rcases ih (done ++ [c]) h.of_cons hg' hdone' with ⟨q, hq⟩
    refine ⟨q, ?_⟩
    rw [List.append_cons done, ← hq, ← hscan, ← List.append_assoc]
    rfl

/-! ## Double quotes -/

theorem escape?_of_escapeLetter? (h : Printer.escapeLetter? c = some d) :
    escape? d = some (.char c) ∧ isBreak d = false := by
  have hc : c = Char.ofNat c.toNat := (Char.ofNat_toNat c).symm
  unfold Printer.escapeLetter? at h
  split at h
  case h_15 => cases h
  all_goals
    rename_i hn
    cases h
    rw [hn] at hc
    rw [hc]
    exact ⟨rfl, rfl⟩

theorem scan_escape (hline : 0 < p.column) (hd : isBreak d = false) :
    scan false acc g none ('\\' :: d :: s) p =
      match escape? d with
      | none => none
      | some (.char c) => scan false (c :: (g.text ++ acc)) .none none s (p.advance 2)
      | some (.code digits) =>
        scan false (g.text ++ acc) .none (some ⟨digits, 0⟩) s (p.advance 2) := by
  rw [scan, if_neg (by decide), if_neg (by decide), if_neg (by simp [Nat.pos_iff_ne_zero.mp hline]),
    if_neg Bool.false_ne_true]
  · split
    · rename_i heq
      cases heq
    · rename_i heq
      cases heq
      exact absurd rfl (ne_carriageReturn hd)
    · rename_i heq
      cases heq
      rw [hd]
      exact if_neg Bool.false_ne_true
    · rename_i heq
      cases heq
    · rename_i hnot _
      exact (hnot d s rfl rfl).elim
  · exact fun _ h => absurd h (by decide)

theorem char?_toNat (c : Char) : char? c.toNat = some c := by
  have hvalid : c.toNat.isValidChar := c.valid
  rw [char?, if_pos hvalid, Char.ofNat_toNat]

theorem scan_code {left value : Nat} {ds : List Char} (hds : ds.length = left) (hne : ds ≠ [])
    (h : Numeral.extend? 16 value ds = some c.toNat) :
    scan false acc g (some ⟨left, value⟩) (ds ++ t) p =
      scan false (c :: acc) g none t (p.advance ds.length) := by
  -- the value so far is general, since each digit moves it up by one place
  induction ds generalizing left value p with
  | nil => exact absurd rfl hne
  | cons d ds ih =>
    rcases Numeral.extend?_cons_eq_some.mp h with ⟨v, hv, hrest⟩
    rw [List.length_cons] at hds
    rw [List.cons_append, scan, hv]
    cases ds with
    | nil =>
      have hvalue : 16 * value + v = c.toNat := Option.some.inj hrest
      have hleft : left ≤ 1 := Nat.le_of_eq hds.symm
      simp only [hvalue, if_pos hleft, char?_toNat]
      rfl
    | cons e ds =>
      have hleft : ¬left ≤ 1 := by
        rw [List.length_cons] at hds
        omega
      simp only [if_neg hleft]
      rw [ih (Nat.eq_sub_of_add_eq hds) (List.cons_ne_nil e ds) hrest, ← Place.advance_succ]
      rfl

theorem digitValue?_toUpper (c : Char) :
    Numeral.digitValue? 16 c.toUpper = Numeral.digitValue? 16 c := by
  by_cases h : c.toNat < 123
  · have hsmall : ∀ n < 123, Numeral.digitValue? 16 (Char.ofNat n).toUpper =
        Numeral.digitValue? 16 (Char.ofNat n) := by decide
    have := hsmall c.toNat h
    rwa [Char.ofNat_toNat] at this
  · rw [Char.toUpper, dif_neg]
    intro hlower
    exact h (Nat.lt_succ_of_le hlower.2)

theorem extend?_map_toUpper (n : Nat) (ds : List Char) :
    Numeral.extend? 16 n (ds.map Char.toUpper) = Numeral.extend? 16 n ds := by
  induction ds generalizing n with
  | nil => rfl
  | cons d ds ih => simp only [List.map_cons, Numeral.extend?, digitValue?_toUpper, ih]

theorem scan_padded {letter : Char} {width : Nat} (hletter : escape? letter = some (.code width))
    (hbreak : isBreak letter = false) (hwidth : 0 < width) (hc : c.toNat < Nat.pow 16 width)
    (hline : 0 < p.column) :
    scan false acc g none
        ('\\' :: letter :: (Numeral.padded 16 width c.toNat).map Char.toUpper ++ t) p =
      scan false (c :: (g.text ++ acc)) .none none t ((p.advance 2).advance width) := by
  -- padding gives as many digits as the escape takes
  have hlength : ((Numeral.padded 16 width c.toNat).map Char.toUpper).length = width := by
    rw [List.length_map]
    apply Numeral.length_padded
    rw [Numeral.digits_eq_toDigits (by decide)]
    exact (Nat.length_toDigits_le_iff (by decide) hwidth).mpr hc
  have hne : (Numeral.padded 16 width c.toNat).map Char.toUpper ≠ [] := by
    apply List.ne_nil_of_length_pos
    rw [hlength]
    exact hwidth
  have hread : Numeral.read? 16 (Numeral.padded 16 width c.toNat) = some c.toNat :=
    Numeral.read?_padded (by decide) (by decide) width c.toNat
  rw [Numeral.read?, if_neg (by simpa using hne), ← extend?_map_toUpper] at hread
  rw [List.cons_append, List.cons_append, scan_escape hline hbreak, hletter]
  simp only
  rw [scan_code hlength hne hread, hlength]

/-- A code point is written with as many digits as the letter in front of them tells. -/
theorem exists_escapedCode_eq (c : Char) : ∃ letter width,
    Printer.escapedCode c = letter :: (Numeral.padded 16 width c.toNat).map Char.toUpper ∧
      escape? letter = some (.code width) ∧ isBreak letter = false ∧ 0 < width ∧
      c.toNat < Nat.pow 16 width := by
  by_cases hbyte : c.toNat ≤ 0xFF
  · refine ⟨'x', 2, ?_, rfl, rfl, by decide, Nat.lt_succ_of_le hbyte⟩
    simp only [Printer.escapedCode, if_pos hbyte]
  · by_cases hword : c.toNat ≤ 0xFFFF
    · refine ⟨'u', 4, ?_, rfl, rfl, by decide, Nat.lt_succ_of_le hword⟩
      simp only [Printer.escapedCode, if_neg hbyte, if_pos hword]
    · refine ⟨'U', 8, ?_, rfl, rfl, by decide, c.val.toNat_lt⟩
      simp only [Printer.escapedCode, if_neg hbyte, if_neg hword]

theorem exists_scan_escapedCode (c : Char) (acc : List Char) (g : Gap) (hline : 0 < p.column) :
    ∃ q, 0 < Place.column q ∧ ∀ t, scan false acc g none ('\\' :: Printer.escapedCode c ++ t) p =
      scan false (c :: (g.text ++ acc)) .none none t q := by
  rcases exists_escapedCode_eq c with ⟨letter, width, hcode, hletter, hbreak, hwidth, hc⟩
  refine ⟨(p.advance 2).advance width, Nat.lt_add_left _ hwidth, fun t => ?_⟩
  rw [hcode]
  exact scan_padded hletter hbreak hwidth hc hline

theorem of_escapeLetter?_eq_none (h : Printer.escapeLetter? c = none) :
    isBreak c = false ∧ c ≠ '"' ∧ c ≠ '\\' := by
  refine ⟨?_, ?_, ?_⟩
  · rw [← Bool.not_eq_true]
    intro hbreak
    simp only [isBreak, Bool.or_eq_true, decide_eq_true_eq] at hbreak
    rcases hbreak with (((hc | hc) | hc) | hc) | hc <;> simp [Printer.escapeLetter?, hc] at h
  · rintro rfl
    exact absurd h (by decide)
  · rintro rfl
    exact absurd h (by decide)

theorem scan_unescaped (hblank : isBlank c = false) (hbreak : isBreak c = false)
    (hquote : c ≠ '"') (hslash : c ≠ '\\') (hline : 0 < p.column) :
    scan false acc g none (c :: s) p =
      scan false (c :: (g.text ++ acc)) .none none s (p.past c) := by
  rw [scan, hblank, hbreak]
  · simp [Nat.pos_iff_ne_zero.mp hline, hslash]
  · exact fun _ h => absurd h (ne_carriageReturn hbreak)

theorem scan_closing_double (hline : 0 < p.column) :
    scan false acc g none ('"' :: t) p = some ((g.text ++ acc).reverse, ⟨t, p.advance⟩) := by
  rw [scan]
  · simp [isBlank, isBreak, Nat.pos_iff_ne_zero.mp hline]
  · exact fun _ h => absurd h (by decide)

/-- What is written for one character adds it to what has been read. -/
theorem exists_scan_escaped (c : Char) (acc : List Char) (hg : g.broken = false)
    (hline : 0 < p.column) :
    ∃ acc' g' q, g'.broken = false ∧ 0 < Place.column q ∧
      g'.text ++ acc' = c :: (g.text ++ acc) ∧
      ∀ t, scan false acc g none (Printer.escaped c ++ t) p = scan false acc' g' none t q := by
  rw [Printer.escaped]
  -- a short escape, the character itself, or its number
  cases hletter : Printer.escapeLetter? c with
  | some letter =>
    rcases escape?_of_escapeLetter? hletter with ⟨hescape, hbreak⟩
    refine ⟨_, .none, p.advance 2, rfl, Nat.succ_pos _, rfl, fun t => ?_⟩
    change scan false acc g none ('\\' :: letter :: t) p = _
    rw [scan_escape hline hbreak, hescape]
  | none =>
    rcases of_escapeLetter?_eq_none hletter with ⟨hbreak, hquote, hslash⟩
    simp only
    split
    · cases hblank : isBlank c with
      | true =>
        refine ⟨acc, g.pushBlank c, p.advance, ?_, Nat.succ_pos _, ?_, fun t => scan_blank hblank⟩
        · simp [Gap.pushBlank, hg]
        · rw [text_pushBlank hg, List.cons_append]
      | false =>
        exact ⟨_, .none, p.past c, rfl, Nat.succ_pos _, rfl,
          fun t => scan_unescaped hblank hbreak hquote hslash hline⟩
    · rcases exists_scan_escapedCode c acc g hline with ⟨q, hq, hscan⟩
      exact ⟨_, .none, q, rfl, hq, rfl, hscan⟩

theorem scan_double (done : List Char) (hg : g.broken = false) (hline : 0 < p.column)
    (hdone : g.text ++ acc = done.reverse) :
    ∃ q, scan false acc g none (s.flatMap Printer.escaped ++ '"' :: t) p =
      some (done ++ s, ⟨t, q⟩) := by
  -- as for single quotes, but a gap never breaks the line
  induction s generalizing acc g p done with
  | nil =>
    refine ⟨p.advance, ?_⟩
    rw [List.append_nil, ← List.reverse_reverse done, ← hdone]
    exact scan_closing_double hline
  | cons c s ih =>
    rcases exists_scan_escaped c acc hg hline with ⟨acc', g', p', hg', hp', htext, hscan⟩
    have hdone' : g'.text ++ acc' = (done ++ [c]).reverse := by
      rw [htext, hdone, List.reverse_append]
      rfl
    rcases ih (done ++ [c]) hg' hp' hdone' with ⟨q, hq⟩
    refine ⟨q, ?_⟩
    rw [List.append_cons done, ← hq, ← hscan, List.flatMap_cons, List.append_assoc]

/-! ## Whole scalars -/

theorem single_of_singleHolds (h : Style.singleHolds s) (hfeed : '\n' ∉ s) : Single s := by
  rw [Style.singleHolds, Bool.and_eq_true, Bool.not_eq_true', Bool.not_eq_true',
    Style.needsEscapes_eq_false] at h
  exact ⟨h.1.1, hfeed, h.1.2, h.2⟩

theorem read_single (hmargin : 0 < margin) (h : Single s) (ht : t.head? ≠ some '\'') :
    ∃ q, read true ⟨Printer.single margin s ++ t, p⟩ = some (s, ⟨t, q⟩) := by
  have hline : 0 < p.advance.column := Nat.succ_pos _
  exact scan_single [] hmargin h (.none hline) ht rfl

theorem read_double : ∃ q, read false ⟨Printer.double s ++ t, p⟩ = some (s, ⟨t, q⟩) := by
  have hline : 0 < p.advance.column := Nat.succ_pos _
  have hbroken : Gap.none.broken = false := rfl
  rw [Printer.double, List.append_assoc]
  exact scan_double [] hbroken hline rfl

end UnitGraph.Yaml.Quoted
