import UnitGraph.Proofs.Yaml.Scalar.Block
import UnitGraph.Proofs.Yaml.Scalar.Plain
import UnitGraph.Proofs.Yaml.Scalar.Quoted
import UnitGraph.Yaml.Lexer

/-!
# Block mappings in tokens

Between the entries of a block mapping no key has started. From there a key with its colon is read
in two steps, and a value in one, after which the lexer is between entries again.
-/

namespace UnitGraph.Yaml

variable {s t r name : List Char} {tokens : List Token} {margins : List Nat} {margin k : Nat}
  {p : Place} {c : Char}

namespace Lexer

variable {lx lx' lx'' : Lexer} {n m : Nat}

/-! ## Runs -/

/-- After some steps a run goes on as one that starts elsewhere. -/
def Leads (n : Nat) (lx lx' : Lexer) : Prop :=
  ∀ limit, run (n + limit) lx = run limit lx'

theorem Leads.trans (h : Leads n lx lx') (h' : Leads m lx' lx'') : Leads (n + m) lx lx'' := by
  intro limit
  rw [Nat.add_assoc, h, h']

theorem leads_of_prepare (h : lx.prepare = lx'.prepare) : Leads 0 lx lx' := by
  intro limit
  cases limit with
  | zero => rfl
  | succ limit => rw [Nat.zero_add, run, run, h]

theorem leads_token (hprepare : lx.prepare = some lx') (hrest : lx'.cursor.rest ≠ [])
    (htoken : lx'.token = some lx'') : Leads 1 lx lx'' := by
  intro limit
  rw [Nat.add_comm, run, hprepare]
  simp [hrest, htoken]

/-! ## Before tokens -/

theorem closeTo_of_le (h : lx.margin ≤ n) : lx.closeTo n = lx := by
  unfold closeTo
  split
  · rfl
  · cases lx.margins with
    | nil => rfl
    | cons m ms => rw [closeBlocks, if_neg (Nat.not_lt.mpr h)]

theorem prepare_eq {c : Cursor} {keyAllowed : Bool} (hout : lx.outerKeys = [])
    (hskip : skipToToken false false lx.keyAllowed lx.cursor.rest lx.cursor.place = (c, keyAllowed))
    (hkey : freshKey c.place lx.keyStart = some lx.keyStart) :
    lx.prepare = some (Lexer.closeTo { lx with cursor := c, keyAllowed } (c.place.column + 1)) := by
  have hbrackets : lx.inBrackets = false := by rw [inBrackets, hout]; rfl
  rw [prepare, hbrackets, hskip]
  simp [dropStaleKeys, hkey, hout, column]

/-! ## Tokens -/

def outside (keyAllowed : Bool) (tokens : List Token) (margin : Nat) (margins : List Nat)
    (cursor : Cursor) : Lexer :=
  { cursor, tokens := tokens.toArray, margin, margins, keyAllowed }

theorem token_plain {keyAllowed : Bool} (hs : Style.Plain s) (hne : s ≠ [])
    (hmark : p.column = 0 → atDocumentMark (s ++ t) = false) :
    (outside keyAllowed tokens margin margins ⟨s ++ t, p⟩).token =
      (outside keyAllowed tokens margin margins ⟨s ++ t, p⟩).plain := by
  cases s with
  | nil => exact absurd rfl hne
  | cons c s =>
    -- the branches before that of a plain scalar ask for the first character, for a gap behind it,
    -- or for a mark at the start of a line
    have hindicator := hs.not_isIndicator_head
    have hgap := fun hc => atGap_append (t := t) (hs.not_atGap_tail hc)
    have hpercent : c ≠ '%' := by
      rintro rfl
      exact absurd hindicator (by decide)
    have hmark' : (decide (p.column = 0) && atDocumentMark (c :: (s ++ t))) = false := by
      by_cases h : p.column = 0
      · rw [← List.cons_append, hmark h, Bool.and_false]
      · simp [h]
    have hbrackets :
        (outside keyAllowed tokens margin margins ⟨c :: s ++ t, p⟩).inBrackets = false := rfl
    have hcolumn :
        (outside keyAllowed tokens margin margins ⟨c :: s ++ t, p⟩).column = p.column := rfl
    have hrest :
        (outside keyAllowed tokens margin margins ⟨c :: s ++ t, p⟩).cursor.rest = c :: (s ++ t) :=
      rfl
    unfold token
    simp only [hrest, hcolumn, hpercent, hmark', hbrackets, decide_false, Bool.and_false,
      Bool.false_eq_true, if_false, Bool.false_or]
    split
    case h_13 => rw [if_neg (by rw [hgap (.inl rfl)]; decide)]
    case h_14 => rw [if_neg (by rw [hgap (.inr (.inl rfl))]; decide)]
    case h_15 => rw [if_neg (by rw [hgap (.inr (.inr rfl))]; decide)]
    case h_16 => rw [if_neg (by rw [hs.not_isBlank_head, hindicator]; decide)]
    all_goals exact absurd hindicator (by decide)

theorem token_plainValue {c : Cursor} (hs : Style.Plain s) (hne : s ≠ []) (hline : 0 < p.column)
    (hread : Plain.read false margin ⟨s ++ t, p⟩ = some ⟨s, c, true⟩) :
    (outside false tokens margin margins ⟨s ++ t, p⟩).token =
      some (outside true (tokens ++ [.scalar true s]) margin margins c) := by
  rw [token_plain hs hne fun h => absurd h (Nat.ne_of_gt hline)]
  simp [plain, saveKey, outside, inBrackets, emit, hread]

theorem token_singleQuote {c : Cursor} (hline : 0 < p.column)
    (hread : Quoted.read true ⟨'\'' :: t, p⟩ = some (s, c)) :
    (outside false tokens margin margins ⟨'\'' :: t, p⟩).token =
      some (outside false (tokens ++ [.scalar false s]) margin margins c) := by
  simp [token, outside, column, Nat.pos_iff_ne_zero.mp hline, quoted, content, saveKey, emit, hread]

theorem token_doubleQuote {c : Cursor} (hline : 0 < p.column)
    (hread : Quoted.read false ⟨'"' :: t, p⟩ = some (s, c)) :
    (outside false tokens margin margins ⟨'"' :: t, p⟩).token =
      some (outside false (tokens ++ [.scalar false s]) margin margins c) := by
  simp [token, outside, column, Nat.pos_iff_ne_zero.mp hline, quoted, content, saveKey, emit, hread]

theorem token_literal {c : Cursor} (hline : 0 < p.column)
    (hread : Block.read true margin ⟨'|' :: t, p⟩ = some (s, c)) :
    (outside false tokens margin margins ⟨'|' :: t, p⟩).token =
      some (outside true (tokens ++ [.scalar false s]) margin margins c) := by
  simp [token, outside, column, Nat.pos_iff_ne_zero.mp hline, inBrackets, block, dropKey, emit,
    hread]

/-! ## Values -/

theorem leads_lineFeed (hr : ∀ c ∈ r.head?, c.isAlpha) :
    Leads 0 (outside false tokens margin margins ⟨'\n' :: (List.replicate k ' ' ++ r), p⟩)
      (outside true tokens margin margins ⟨r, p.nextLine.advance k⟩) := by
  apply leads_of_prepare
  have hskip : skipToToken false false false ('\n' :: (List.replicate k ' ' ++ r)) p =
      (⟨r, p.nextLine.advance k⟩, true) := by
    rw [skipToToken_lineFeed, skipToToken_indent, skipToToken_letter hr]
  rw [prepare_eq rfl hskip rfl, prepare_eq rfl (skipToToken_letter hr) rfl]
  rfl

/-- A space after a colon is skipped. -/
theorem leads_value (hblank : isBlank c = false) (hbreak : isBreak c = false) (hc : c ≠ '#')
    (hmark : c ≠ byteOrderMark) (hp : margin ≤ p.column)
    (htoken : (outside false tokens margin margins ⟨c :: s, p.advance⟩).token = some lx) :
    Leads 1 (outside false tokens margin margins ⟨' ' :: c :: s, p⟩) lx := by
  have hskip : skipToToken false false false (' ' :: c :: s) p = (⟨c :: s, p.advance⟩, false) :=
    (skipToToken_indent (k := 1)).trans (skipToToken_cons hblank hbreak hc hmark)
  have hprepare : (outside false tokens margin margins ⟨' ' :: c :: s, p⟩).prepare =
      some (outside false tokens margin margins ⟨c :: s, p.advance⟩) := by
    rw [prepare_eq rfl hskip rfl, closeTo_of_le]
    · rfl
    · exact Nat.le_succ_of_le (Nat.le_succ_of_le hp)
  exact leads_token hprepare (List.cons_ne_nil c s) htoken

/-- Written after a key, a scalar with the end of its line is read as a token. -/
def ReadsAs (margin : Nat) (w : List Char) (t : Token) : Prop :=
  ∀ {k r p tokens margins}, k < margin → (∀ c ∈ List.head? r, c.isAlpha) → margin ≤ Place.column p →
    ∃ q, q.column = k ∧
      Leads 1 (outside false tokens margin margins ⟨' ' :: (w ++ (List.replicate k ' ' ++ r)), p⟩)
        (outside true (tokens ++ [t]) margin margins ⟨r, q⟩)

theorem readsAs_plain (hs : Style.Plain s) (hne : s ≠ []) :
    ReadsAs margin (s ++ ['\n']) (.scalar true s) := by
  intro k r p tokens margins hk hr hp
  have hline : 0 < p.advance.column := Nat.succ_pos _
  -- the scalar begins behind the space, and its line break ends it
  have hread := Plain.read_line hs hne (Nat.le_succ_of_le hp) hline hk hr
  refine ⟨(s.foldl Place.past p.advance).nextLine.advance k, Nat.zero_add k, ?_⟩
  rw [List.append_assoc, List.singleton_append]
  cases s with
  | nil => exact absurd rfl hne
  | cons c s =>
    have hcomment : c ≠ '#' := by
      rintro rfl
      exact absurd hs.not_isIndicator_head (by decide)
    have hmark := Style.ne_byteOrderMark_of_isPrintable (hs.printable c List.mem_cons_self)
    exact leads_value hs.not_isBlank_head (hs.onLine c List.mem_cons_self) hcomment hmark hp
      (token_plainValue hs hne hline hread)

theorem readsAs_single (hs : Quoted.Single s) :
    ReadsAs margin (Printer.single (margin + 1) s ++ ['\n']) (.scalar false s) := by
  intro k r p tokens margins hk hr hp
  have hquote : ('\n' :: (List.replicate k ' ' ++ r)).head? ≠ some '\'' := by simp
  rcases Quoted.read_single (p := p.advance) (Nat.succ_pos margin) hs hquote with ⟨q, hread⟩
  refine ⟨q.nextLine.advance k, Nat.zero_add k, .trans ?_ (leads_lineFeed hr)⟩
  rw [List.append_assoc, List.singleton_append]
  exact leads_value (by decide) (by decide) (by decide) (by decide) hp
    (token_singleQuote (Nat.succ_pos _) hread)

theorem readsAs_double (s : List Char) :
    ReadsAs margin (Printer.double s ++ ['\n']) (.scalar false s) := by
  intro k r p tokens margins hk hr hp
  rcases Quoted.read_double (s := s) (t := '\n' :: (List.replicate k ' ' ++ r)) (p := p.advance)
    with ⟨q, hread⟩
  refine ⟨q.nextLine.advance k, Nat.zero_add k, .trans ?_ (leads_lineFeed hr)⟩
  rw [List.append_assoc, List.singleton_append]
  exact leads_value (by decide) (by decide) (by decide) (by decide) hp
    (token_doubleQuote (Nat.succ_pos _) hread)

theorem readsAs_literal (hs : ∀ c ∈ s, Style.isPrintable c) (hne : s ≠ []) :
    ReadsAs margin (Printer.literal (margin + 1) s) (.scalar false s) := by
  intro k r p tokens margins hk hr hp
  rcases Block.read_literal (p := p.advance) (Nat.zero_lt_of_lt hk) hs hne hk hr with ⟨q, hq, hread⟩
  refine ⟨q, hq, ?_⟩
  exact leads_value (by decide) (by decide) (by decide) (by decide) hp
    (token_literal (Nat.succ_pos _) hread)

/-- A written text is read as a scalar that stands for it, plain where it was written plainly. -/
theorem readsAs_text (s : List Char) :
    ReadsAs margin (Printer.text (margin + 1) s) (.scalar (Style.ofText s = .plain) s) := by
  unfold Printer.text
  -- the printer chooses one of four styles, and each is read back as itself
  cases hstyle : Style.ofText s with
  | plain =>
    rcases Style.of_ofText_eq_plain hstyle with ⟨htext, hplain⟩
    refine readsAs_plain (Style.plain_of_plainHolds hplain) ?_
    rintro rfl
    exact absurd htext (by decide)
  | singleQuoted =>
    rcases Style.of_ofText_eq_singleQuoted hstyle with ⟨hfeed, hsingle⟩
    exact readsAs_single (Quoted.single_of_singleHolds hsingle hfeed)
  | doubleQuoted => exact readsAs_double s
  | literal =>
    rcases Style.of_ofText_eq_literal hstyle with ⟨hfeed, hliteral⟩
    rw [Style.literalHolds, Bool.and_eq_true, Bool.not_eq_true', Style.needsEscapes_eq_false]
      at hliteral
    exact readsAs_literal hliteral.1.1 (List.ne_nil_of_mem hfeed)

example : Printer.text 4 "true".toList = "'true'\n".toList := by
  decide

example : Printer.text 4 " a: b\n".toList = "|2\n     a: b\n".toList := by
  decide

/-! ## Keys -/

def afterKey (tokens : List Token) (margin : Nat) (margins : List Nat) (name : List Char)
    (p : Place) (cursor : Cursor) : Lexer :=
  { outside false (tokens ++ [.scalar true name]) margin margins cursor with
    keyStart := some ⟨tokens.length, p, margin = p.column + 1⟩ }

structure IsKey (name : List Char) : Prop where
  plain : Style.Plain name
  ne_nil : name ≠ []
  head : ∀ c ∈ name.head?, c.isAlpha
  size : (name.map Char.utf8Size).sum ≤ 1024

theorem IsKey.head_append (h : IsKey name) (t : List Char) :
    ∀ c ∈ (name ++ t).head?, c.isAlpha := by
  cases name with
  | nil => exact absurd rfl h.ne_nil
  | cons c name => exact h.head

theorem IsKey.isAllowed (h : IsKey name) : ∀ c ∈ name, isAllowed c := fun c hc =>
  Style.isAllowed_of_isPrintable (h.plain.printable c hc)

theorem leads_afterKey (hname : IsKey name) (ht : atGap t) (hp : margin ≤ p.column + 1) :
    Leads 1 (outside true tokens margin margins ⟨name ++ ':' :: t, p⟩)
      (afterKey tokens margin margins name p ⟨':' :: t, name.foldl Place.past p⟩) := by
  have hletter := hname.head_append (':' :: t)
  have hprepare : (outside true tokens margin margins ⟨name ++ ':' :: t, p⟩).prepare =
      some (outside true tokens margin margins ⟨name ++ ':' :: t, p⟩) := by
    rw [prepare_eq rfl (skipToToken_letter hletter) rfl, closeTo_of_le hp]
  have hread := Plain.read_key hname.plain hname.ne_nil hp (fun _ => not_atDocumentMark hletter) ht
  refine leads_token hprepare (by simp [outside]) ?_
  rw [token_plain hname.plain hname.ne_nil fun _ => not_atDocumentMark hletter]
  simp [plain, saveKey, dropKey, outside, inBrackets, column, emit, hread, afterKey]
  rfl

theorem insertIdx_length (tokens tail : List Token) (t : Token) :
    (tokens ++ tail).insertIdx tokens.length t = tokens ++ t :: tail := by
  induction tokens with
  | nil => rfl
  | cons u tokens ih => rw [List.cons_append, List.length_cons, List.insertIdx_succ_cons, ih]; rfl

theorem leads_colon {q : Place} (ht : atGap t) (hline : p.line = q.line)
    (hcolumn : p.column ≤ q.column) (hoffset : q.offset ≤ p.offset + 1024)
    (hp : margin ≤ p.column + 1) :
    Leads 1 (afterKey tokens margin margins name p ⟨':' :: t, q⟩)
      (outside false
        (tokens ++ (if margin ≤ p.column then [.blockMappingStart] else []) ++
          [.key, .scalar true name, .value])
        (p.column + 1) (if margin ≤ p.column then margin :: margins else margins)
        ⟨t, q.advance⟩) := by
  have hskip : skipToToken false false false (':' :: t) q = (⟨':' :: t, q⟩, false) :=
    skipToToken_cons (by decide) (by decide) (by decide) (by decide)
  -- a key has to stand on one line and within 1024 characters
  have hstale : KeyStart.isStale ⟨tokens.length, p, margin = p.column + 1⟩ q = false := by
    simp only [KeyStart.isStale, Bool.or_eq_false_iff, decide_eq_false_iff_not]
    omega
  have hprepare : (afterKey tokens margin margins name p ⟨':' :: t, q⟩).prepare =
      some (afterKey tokens margin margins name p ⟨':' :: t, q⟩) := by
    rw [prepare_eq rfl hskip, closeTo_of_le]
    · rfl
    · exact Nat.le_trans hp (Nat.succ_le_succ hcolumn)
    · simp [afterKey, freshKey, hstale]
  refine leads_token hprepare (List.cons_ne_nil _ _) ?_
  have htoken : (afterKey tokens margin margins name p ⟨':' :: t, q⟩).token =
      (afterKey tokens margin margins name p ⟨':' :: t, q⟩).value := by
    simp [token, afterKey, outside, ht, atDocumentMark]
  have hkey := insertIdx_length tokens [.scalar true name] .key
  have hstart := insertIdx_length tokens [.key, .scalar true name] .blockMappingStart
  rw [htoken, value]
  -- to the right of the block it opens one, else it goes on with the block that is open
  by_cases hopen : margin ≤ p.column
  · simp [afterKey, outside, openBlock, inBrackets, emit, hopen, hkey, hstart]
    rfl
  · have hmargin : margin = p.column + 1 := by omega
    simp [afterKey, outside, openBlock, inBrackets, emit, hkey, hmargin]
    rfl

theorem leads_key (tokens : List Token) (margins : List Nat) (hname : IsKey name) (ht : atGap t)
    (hp : margin ≤ p.column + 1) :
    ∃ q, p.column + 1 ≤ q.column ∧
      Leads 2 (outside true tokens margin margins ⟨name ++ ':' :: t, p⟩) (outside false
        (tokens ++ (if margin ≤ p.column then [.blockMappingStart] else []) ++
          [.key, .scalar true name, .value])
        (p.column + 1) (if margin ≤ p.column then margin :: margins else margins) ⟨t, q⟩) := by
  have hcolumn : p.column ≤ (name.foldl Place.past p).column := by
    rw [Place.column_foldl_past]
    exact Nat.le_add_right _ _
  have hoffset : (name.foldl Place.past p).offset ≤ p.offset + 1024 := by
    rw [Place.offset_foldl_past]
    exact Nat.add_le_add_left hname.size _
  exact ⟨_, Nat.succ_le_succ hcolumn, (leads_afterKey hname ht hp).trans
    (leads_colon ht (Place.line_foldl_past name p).symm hcolumn hoffset hp)⟩

end Lexer

end UnitGraph.Yaml
