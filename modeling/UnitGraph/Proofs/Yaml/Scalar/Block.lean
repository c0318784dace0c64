import UnitGraph.Proofs.Yaml.Scalar.Style

/-!
# Literal scalars read back

The line ends that have been read but not yet been added to the text are kept by the state, so text
and line ends together are what has been read. What the chomping keeps of them at the end is what
the text ends with.
-/

namespace UnitGraph.Yaml.Block

variable {c : Char} {s r t u done : List Char} {p : Place} {st : State} {chomping : Chomping}
  {margin k : Nat}

/-! ## The header -/

/-- The header is read back, whatever is on the lines after it. -/
theorem read_header (margin : Nat) (increment : Bool) (chomping : Chomping) (t : List Char)
    (p : Place) :
    ∃ q, q.column = 0 ∧ read true margin ⟨'|' :: ((if increment then ['2'] else []) ++
        (Printer.chompingSign chomping ++ '\n' :: t)), p⟩ =
      scan true chomping margin
        { indent := (if increment then some 2 else none).map (margin - 1 + ·) } t q := by
  refine ⟨p.nextLine, rfl, ?_⟩
  cases increment <;> cases chomping <;> rfl

/-! ## Single characters -/

theorem scan_inLine (hst : st.inLine) (hr : c ≠ '\r') :
    scan true chomping margin st (c :: s) p =
      if isBreak c then scan true chomping margin (st.pushBreak c) s p.nextLine
      else scan true chomping margin { st with acc := c :: st.acc } s (p.past c) := by
  rw [scan, if_pos hst]
  exact fun _ h => absurd h hr

theorem scan_space (hst : st.inLine = false) (hindent : st.indent.all (p.column < ·)) :
    scan true chomping margin st (' ' :: s) p = scan true chomping margin st s p.advance := by
  rw [scan]
  · simp [hst, hindent]
  · exact fun _ h => absurd h (by decide)

theorem scan_lineStart (hst : st.inLine = false) (hr : c ≠ '\r') (ht : c ≠ '\t')
    (hc : c = ' ' → st.indent.all (p.column < ·) = false) :
    scan true chomping margin st (c :: s) p =
      if isBreak c then
        scan true chomping margin
          (State.pushBreak { st with deepest := max st.deepest p.column } c) s p.nextLine
      else if p.column = st.indent.getD (max (max (max st.deepest p.column) margin) 1) then
        scan true chomping margin
          { st with
            deepest := max st.deepest p.column
            indent := some (st.indent.getD (max (max (max st.deepest p.column) margin) 1))
            acc := c :: (st.emptyEnds ++ (st.lineEnd.toList ++ st.acc))
            lineEnd := none
            emptyEnds := []
            indented := isBlank c
            inLine := true }
          s (p.past c)
      else some (st.chomped chomping, ⟨c :: s, p⟩) := by
  rw [scan]
  · -- of the branches before this one, breaks, tabs and indentation are excluded
    have hspace : ¬(c = ' ' ∧ st.indent.all (p.column < ·) = true) := by
      rintro ⟨hspace, hindent⟩
      rw [hc hspace] at hindent
      cases hindent
    simp [hst, ht, hspace, State.joined]
    rfl
  · exact fun _ h => absurd h hr

/-! ## Chomping -/

theorem chomping_concat (s : List Char) (b : Char) :
    Printer.chomping (s ++ [b]) =
      if isBreak b then if s.getLast?.all isBreak then .keep else .clip else .strip := by
  rw [Printer.chomping, List.reverse_append, List.getLast?_eq_head?_reverse]
  cases s.reverse with
  | nil => rfl
  | cons c s => cases hb : isBreak b <;> cases hc : isBreak c <;> simp [hb, hc]

/-! ## Lines -/

/-- A state at a place holds what has been read, and goes on with the lines of a text that are
indented by one more than the margin. The indentation is told by the first line only if that starts
with something else. -/
structure Holds (margin : Nat) (st : State) (p : Place) (done s : List Char) : Prop where
  text : st.emptyEnds ++ (st.lineEnd.toList ++ st.acc) = done.reverse
  last : ∀ c ∈ done.getLast?, isBreak c = !st.inLine
  inLine : st.inLine → done ≠ [] ∧ st.lineEnd = none ∧ st.emptyEnds = []
  chomped : st.inLine = false → st.chomped (Printer.chomping done) = done
  column : st.inLine = false → p.column = 0
  deepest : st.deepest ≤ margin + 1
  indent : st.indent = some (margin + 1) ∨
    st.indent = none ∧ st.inLine = false ∧ ∃ c ∈ s.head?, c ≠ ' ' ∧ isBreak c = false

theorem Holds.deepen {d : Nat} (h : Holds margin st p done s) (hd : d ≤ margin + 1) :
    Holds margin { st with deepest := d } p done s :=
  { h with deepest := hd }

theorem inLine_pushBreak : (st.pushBreak c).inLine = false := by
  rw [State.pushBreak]
  split
  · rfl
  · rename_i hst
    exact Bool.not_eq_true _ ▸ hst

theorem indent_pushBreak : (st.pushBreak c).indent = st.indent := by
  rw [State.pushBreak]
  split
  · rfl
  · rfl

theorem Holds.indent_eq (h : Holds margin st p done (c :: s))
    (hc : st.inLine ∨ c = ' ' ∨ isBreak c) : st.indent = some (margin + 1) := by
  rcases h.indent with hindent | ⟨-, hst, d, hd, hspace, hbreak⟩
  · exact hindent
  · cases hd
    rw [hst, hbreak] at hc
    simp [hspace] at hc

theorem Holds.acc_eq (h : Holds margin st p done s) (hst : st.inLine) : st.acc = done.reverse := by
  rcases h.inLine hst with ⟨-, hend, hempty⟩
  rw [← h.text, hend, hempty]
  rfl

theorem chomped_pushBreak (h : Holds margin st p done s) (hc : isBreak c)
    (hp : Style.isPrintable c) :
    (st.pushBreak c).chomped (Printer.chomping (done ++ [c])) = done ++ [c] := by
  rw [chomping_concat, if_pos hc, State.pushBreak, Style.breakText_of_isPrintable hp hc]
  -- the break ends a line of text, or is an empty line more
  cases hst : st.inLine with
  | true =>
    rcases List.eq_nil_or_concat done with hdone | ⟨front, b, hdone⟩
    · exact absurd hdone (h.inLine hst).1
    · have hb := h.last b (by rw [hdone]; simp)
      have hall : done.getLast?.all isBreak = false := by simp [hdone, hb, hst]
      simp [hall, State.chomped, h.acc_eq hst]
  | false =>
    have hall : done.getLast?.all isBreak = true := by
      cases hlast : done.getLast? with
      | none => rfl
      | some b => simpa [hst] using h.last b hlast
    simp only [hall, if_true, Bool.false_eq_true, if_false, State.chomped]
    rw [List.cons_append, List.cons_append, List.append_assoc, h.text, List.reverse_cons,
      List.reverse_reverse]

theorem Holds.pushBreak (h : Holds margin st p done (c :: s)) (hc : isBreak c)
    (hp : Style.isPrintable c) : Holds margin (st.pushBreak c) p.nextLine (done ++ [c]) s where
  text := by
    rw [State.pushBreak, Style.breakText_of_isPrintable hp hc, List.reverse_append]
    cases hst : st.inLine with
    | true => simp [h.acc_eq hst]
    | false => simp [h.text]
  last d hd := by
    rw [List.getLast?_concat, Option.mem_some_iff] at hd
    rw [← hd, hc, inLine_pushBreak]
    rfl
  inLine h := by
    rw [inLine_pushBreak] at h
    cases h
  chomped _ := chomped_pushBreak h hc hp
  column _ := rfl
  deepest := by
    rw [State.pushBreak]
    split
    · exact h.deepest
    · exact h.deepest
  indent := by
    rw [indent_pushBreak]
    exact .inl (h.indent_eq (.inr (.inr hc)))

theorem Holds.pushChar (h : Holds margin st p done (c :: s)) (hst : st.inLine)
    (hc : isBreak c = false) :
    Holds margin { st with acc := c :: st.acc } (p.past c) (done ++ [c]) s where
  text := by
    -- inside a line nothing is pending
    rcases h.inLine hst with ⟨-, hend, hempty⟩
    simp [hend, hempty, h.acc_eq hst]
  last d hd := by
    rw [List.getLast?_concat, Option.mem_some_iff] at hd
    rw [← hd, hc, hst]
    rfl
  inLine _ := ⟨List.concat_ne_nil c done, (h.inLine hst).2⟩
  chomped h := by
    rw [hst] at h
    cases h
  column h := by
    rw [hst] at h
    cases h
  deepest := h.deepest
  indent := .inl (h.indent_eq (.inl hst))

theorem Holds.startLine {d : Nat} (h : Holds margin st p done (c :: s))
    (hc : isBreak c = false) (hd : d ≤ margin + 1) (q : Place) :
    Holds margin
      { st with
        deepest := d, indent := some (margin + 1), indented := isBlank c, inLine := true
        acc := c :: (st.emptyEnds ++ (st.lineEnd.toList ++ st.acc)), lineEnd := none
        emptyEnds := [] } q (done ++ [c]) s where
  text := by simp [h.text]
  last d hd := by
    rw [List.getLast?_concat, Option.mem_some_iff] at hd
    rw [← hd, hc]
    rfl
  inLine _ := ⟨List.concat_ne_nil c done, rfl, rfl⟩
  chomped h := nomatch h
  column h := nomatch h
  deepest := hd
  indent := .inl rfl

theorem scan_indent (hst : st.inLine = false) (hindent : ∀ i ∈ st.indent, p.column + k ≤ i) :
    scan true chomping margin st (List.replicate k ' ' ++ s) p =
      scan true chomping margin st s (p.advance k) := by
  -- space by space, each of them still left of the text
  induction k generalizing p with
  | zero => rfl
  | succ k ih =>
    have hspace : st.indent.all (p.column < ·) := by
      rw [Option.all_eq_true]
      intro i hi
      have := hindent i hi
      simp
      omega
    rw [List.replicate_succ, List.cons_append, scan_space hst hspace, ih, ← Place.advance_succ]
    intro i hi
    have := hindent i hi
    change p.column + 1 + k ≤ i
    omega

/-- What is written for a character takes one state to another, whatever is written after it. -/
def Takes (chomping : Chomping) (margin : Nat) (c : Char) (st : State) (p : Place) (st' : State)
    (q : Place) : Prop :=
  ∀ u t, scan true chomping margin st
      (Printer.indented (margin + 1) (!st.inLine) (c :: u) ++ t) p =
    scan true chomping margin st' (Printer.indented (margin + 1) (!st'.inLine) u ++ t) q

theorem takes_lineEnd (hst : st.inLine) (hbreak : isBreak c) (hc : Style.isPrintable c) :
    Takes chomping margin c st p (st.pushBreak c) p.nextLine := by
  intro u t
  rw [Printer.indented_break hbreak, List.cons_append,
    scan_inLine hst (Style.ne_carriageReturn_of_isPrintable hc), if_pos hbreak, inLine_pushBreak]
  rfl

theorem takes_emptyLine (hst : st.inLine = false) (hbreak : isBreak c)
    (hc : Style.isPrintable c) :
    Takes chomping margin c st p
      (State.pushBreak { st with deepest := max st.deepest p.column } c) p.nextLine := by
  have hspace : c ≠ ' ' := by
    rintro rfl
    exact absurd hbreak (by decide)
  intro u t
  rw [Printer.indented_break hbreak, List.cons_append,
    scan_lineStart hst (Style.ne_carriageReturn_of_isPrintable hc)
      (Style.ne_tab_of_isPrintable hc) fun h => absurd h hspace, if_pos hbreak, inLine_pushBreak]
  rfl

theorem takes_inLine (hst : st.inLine) (hbreak : isBreak c = false) (hc : Style.isPrintable c) :
    Takes chomping margin c st p { st with acc := c :: st.acc } (p.past c) := by
  intro u t
  rw [Printer.indented_cons hbreak, hst, Bool.not_true, if_neg Bool.false_ne_true,
    List.nil_append, List.cons_append,
    scan_inLine hst (Style.ne_carriageReturn_of_isPrintable hc), hbreak,
    if_neg Bool.false_ne_true, hst]

theorem Holds.level_eq (h : Holds margin st p done s) {d : Nat} (hd : d ≤ margin + 1) :
    st.indent.getD (max (max (max d (margin + 1)) margin) 1) = margin + 1 := by
  rcases h.indent with hi | ⟨hi, -⟩
  · rw [hi, Option.getD_some]
  · rw [hi, Option.getD_none]
    omega

/-- The first character of a line tells the indentation if that is not known. -/
theorem Holds.takes_startLine (h : Holds margin st p done (c :: s)) (hst : st.inLine = false)
    (hbreak : isBreak c = false) (hc : Style.isPrintable c) :
    Takes chomping margin c st p
      { st with
        deepest := max st.deepest (margin + 1), indent := some (margin + 1)
        indented := isBlank c, inLine := true
        acc := c :: (st.emptyEnds ++ (st.lineEnd.toList ++ st.acc)), lineEnd := none
        emptyEnds := [] } ((p.advance (margin + 1)).past c) := by
  -- a line starts at the margin, where the indentation has been skipped
  have hcolumn : (p.advance (margin + 1)).column = margin + 1 := by
    rw [Place.advance, h.column hst, Nat.zero_add]
  have hindent : ∀ i ∈ st.indent, p.column + (margin + 1) ≤ i := by
    intro i hi
    rw [h.column hst, Nat.zero_add]
    rcases h.indent with hi' | ⟨hi', -⟩
    · rw [hi', Option.mem_some_iff] at hi
      exact Nat.le_of_eq hi
    · rw [hi'] at hi
      cases hi
  have hspace : c = ' ' → st.indent.all ((p.advance (margin + 1)).column < ·) = false := by
    intro hspace
    rw [h.indent_eq (.inr (.inl hspace)), hcolumn, Option.all_some, decide_eq_false_iff_not]
    exact Nat.lt_irrefl _
  intro u t
  rw [Printer.indented_cons hbreak, hst, Bool.not_false, if_pos rfl, List.append_assoc,
    scan_indent hst hindent, List.cons_append,
    scan_lineStart hst (Style.ne_carriageReturn_of_isPrintable hc)
      (Style.ne_tab_of_isPrintable hc) hspace, hbreak, if_neg Bool.false_ne_true, hcolumn,
    h.level_eq h.deepest, if_pos rfl]
  rfl

/-- What is written for one character adds it to what has been read. -/
theorem exists_takes (chomping : Chomping) (h : Holds margin st p done (c :: s))
    (hc : Style.isPrintable c) :
    ∃ st' q, Holds margin st' q (done ++ [c]) s ∧ Takes chomping margin c st p st' q := by
  have hdeepest : st.inLine = false → max st.deepest p.column ≤ margin + 1 := by
    intro hst
    rw [h.column hst]
    exact Nat.max_le.mpr ⟨h.deepest, Nat.zero_le _⟩
  -- a character is a break or not, and met in a line or at the start of one
  cases hbreak : isBreak c with
  | true =>
    cases hst : st.inLine with
    | true => exact ⟨_, _, h.pushBreak hbreak hc, takes_lineEnd hst hbreak hc⟩
    | false =>
      exact ⟨_, _, (h.deepen (hdeepest hst)).pushBreak hbreak hc, takes_emptyLine hst hbreak hc⟩
  | false =>
    cases hst : st.inLine with
    | true => exact ⟨_, _, h.pushChar hst hbreak, takes_inLine hst hbreak hc⟩
    | false =>
      exact ⟨_, _, h.startLine hbreak (Nat.max_le.mpr ⟨h.deepest, Nat.le_refl _⟩) _,
        h.takes_startLine hst hbreak hc⟩

theorem exists_scan_lines (chomping : Chomping) (h : Holds margin st p done s)
    (hs : ∀ c ∈ s, Style.isPrintable c) :
    ∃ st' q, Holds margin st' q (done ++ s) [] ∧ ∀ t,
      scan true chomping margin st (Printer.indented (margin + 1) (!st.inLine) s ++ t) p =
        scan true chomping margin st' t q := by
  -- what is done is general: the invariant says how the state holds it
  induction s generalizing st p done with
  | nil =>
    refine ⟨st, p, ?_, fun t => rfl⟩
    rwa [List.append_nil]
  | cons c s ih =>
    rcases exists_takes chomping h (hs c List.mem_cons_self) with ⟨st', p', h', hscan⟩
    rcases ih h' fun d hd => hs d (List.mem_cons_of_mem c hd) with ⟨st'', q, h'', hscan'⟩
    refine ⟨st'', q, ?_, fun t => ?_⟩
    · rwa [List.append_cons]
    · rw [hscan, hscan']

/-! ## The end -/

theorem scan_leaves (hst : st.inLine = false) (hindent : st.indent = some (margin + 1))
    (hcolumn : p.column = 0) (hk : k < margin) (hr : ∀ c ∈ r.head?, c.isAlpha) :
    scan true chomping margin st (List.replicate k ' ' ++ r) p =
      some (st.chomped chomping, ⟨r, p.advance k⟩) := by
  have hk' : ∀ i ∈ st.indent, p.column + k ≤ i := by
    intro i hi
    rw [hindent, Option.mem_some_iff] at hi
    omega
  -- fewer spaces than the text has end the scalar, unless nothing follows at all
  rw [scan_indent hst hk']
  cases r with
  | nil =>
    rw [scan, hst]
    rfl
  | cons c r =>
    have hc := hr c rfl
    have hspace : c ≠ ' ' := ne_of_isAlpha hc (by decide)
    have hcolumn' : (p.advance k).column = k := by rw [Place.advance, hcolumn, Nat.zero_add]
    have hne : k ≠ margin + 1 := by omega
    rw [scan_lineStart hst (ne_carriageReturn (not_isBreak_of_isAlpha hc))
      (ne_of_isAlpha hc (by decide)) (fun h => absurd h hspace), not_isBreak_of_isAlpha hc, hindent,
      Option.getD_some, hcolumn', if_neg Bool.false_ne_true, if_neg hne]

/-- The end of the last line of a scalar. -/
theorem scan_end (h : Holds margin st p s []) (hs : s ≠ []) (hk : k < margin)
    (hr : ∀ c ∈ r.head?, c.isAlpha) :
    ∃ q, q.column = k ∧ scan true (Printer.chomping s) margin st
        ((if s.getLast?.any isBreak then [] else ['\n']) ++ (List.replicate k ' ' ++ r)) p =
      some (s, ⟨r, q⟩) := by
  have hindent : st.indent = some (margin + 1) := by
    rcases h.indent with hindent | ⟨-, -, c, hc, -⟩
    · exact hindent
    · cases hc
  rcases List.eq_nil_or_concat s with hnil | ⟨front, c, hconcat⟩
  · exact absurd hnil hs
  have hlast := h.last c (by rw [hconcat]; simp)
  have hany : s.getLast?.any isBreak = !st.inLine := by rw [hconcat]; simp [hlast]
  rw [hany]
  cases hst : st.inLine with
  | true =>
    -- no break at the end: the printer adds one and has it stripped
    have hstrip : Printer.chomping s = .strip := by
      rw [hconcat, List.concat_eq_append, chomping_concat, hlast, hst]
      rfl
    have hacc : (st.pushBreak '\n').chomped .strip = s := by
      rw [State.pushBreak, if_pos hst, State.chomped, h.acc_eq hst, List.reverse_reverse]
    refine ⟨p.nextLine.advance k, Nat.zero_add k, ?_⟩
    rw [Bool.not_true, if_neg Bool.false_ne_true, List.singleton_append,
      scan_inLine hst (by decide), if_pos (by decide),
      scan_leaves inLine_pushBreak (indent_pushBreak.trans hindent) rfl hk hr, hstrip, hacc]
  | false =>
    -- the text ends with its own break, which is kept
    refine ⟨p.advance k, ?_, ?_⟩
    · rw [Place.advance, h.column hst, Nat.zero_add]
    · rw [Bool.not_false, if_pos rfl, List.nil_append, scan_leaves hst hindent (h.column hst) hk hr,
        h.chomped hst]

theorem holds_start (hmargin : 0 < margin) (hne : s ≠ []) (hp : p.column = 0) :
    Holds margin
      { indent := (if s.head?.any (fun c => c = ' ' || isBreak c) then some 2 else none).map
          (margin - 1 + ·) } p [] s where
  text := rfl
  last _ hc := nomatch hc
  inLine h := nomatch h
  chomped _ := rfl
  column _ := hp
  deepest := Nat.zero_le _
  indent := by
    cases s with
    | nil => exact absurd rfl hne
    | cons c s =>
      rw [List.head?_cons, Option.any_some]
      -- a text that begins with a blank tells its indentation, others show it
      cases hc : (decide (c = ' ') || isBreak c) with
      | true =>
        refine .inl (congrArg some ?_)
        change margin - 1 + 2 = margin + 1
        omega
      | false =>
        rw [Bool.or_eq_false_iff, decide_eq_false_iff_not] at hc
        exact .inr ⟨rfl, rfl, c, rfl, hc⟩

theorem read_literal (hmargin : 0 < margin) (hs : ∀ c ∈ s, Style.isPrintable c) (hne : s ≠ [])
    (hk : k < margin) (hr : ∀ c ∈ r.head?, c.isAlpha) :
    ∃ q, q.column = k ∧
      read true margin ⟨Printer.literal (margin + 1) s ++ (List.replicate k ' ' ++ r), p⟩ =
        some (s, ⟨r, q⟩) := by
  rcases read_header margin (s.head?.any fun c => c = ' ' || isBreak c) (Printer.chomping s)
    (Printer.indented (margin + 1) true s ++
      ((if s.getLast?.any isBreak then [] else ['\n']) ++ (List.replicate k ' ' ++ r))) p
    with ⟨p', hp', hheader⟩
  -- header, lines, end
  rcases exists_scan_lines (Printer.chomping s) (holds_start hmargin hne hp') hs with
    ⟨st, p'', h, hscan⟩
  rw [List.nil_append] at h
  rcases scan_end h hne hk hr with ⟨q, hq, hend⟩
  refine ⟨q, hq, ?_⟩
  simp only [Printer.literal, List.append_assoc, List.cons_append]
  rw [hheader]
  exact (hscan _).trans hend

end UnitGraph.Yaml.Block
