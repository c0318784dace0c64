import UnitGraph.Proofs.Yaml.Lexer
import UnitGraph.Yaml.Node

/-!
# Block mappings read back

Entries that are written one below the other are read as a mapping with the same keys and values.
-/

namespace UnitGraph.Yaml

variable {s t r name : List Char} {margin k : Nat} {p : Place}

namespace Lexer

/-! ## Entries -/

structure Entry where
  name : List Char
  written : List Char
  plain : Bool
  text : List Char

namespace Entry

def line (e : Entry) : List Char :=
  e.name ++ ':' :: ' ' :: e.written

def toTokens (e : Entry) : List Token :=
  [.key, .scalar true e.name, .value, .scalar e.plain e.text]

structure Reads (margin : Nat) (e : Entry) : Prop where
  isKey : IsKey e.name
  allowed : ∀ c ∈ e.written, isAllowed c
  readsAs : ReadsAs margin e.written (.scalar e.plain e.text)

end Entry

theorem Entry.Reads.head_line {d : Entry} (hd : d.Reads margin) (t : List Char) :
    ∀ c ∈ (d.line ++ t).head?, c.isAlpha := by
  rw [Entry.line, List.append_assoc]
  exact hd.isKey.head_append _

theorem leads_entry (tokens : List Token) (margins : List Nat) {e : Entry}
    (he : e.Reads (p.column + 1)) (hp : margin ≤ p.column + 1) (hk : k ≤ p.column)
    (hr : ∀ c ∈ r.head?, c.isAlpha) :
    ∃ q, q.column = k ∧
      Leads 3 (outside true tokens margin margins ⟨e.line ++ (List.replicate k ' ' ++ r), p⟩)
        (outside true
          (tokens ++ (if margin ≤ p.column then [.blockMappingStart] else []) ++ e.toTokens)
          (p.column + 1) (if margin ≤ p.column then margin :: margins else margins) ⟨r, q⟩) := by
  have hgap : atGap (' ' :: (e.written ++ (List.replicate k ' ' ++ r))) := rfl
  rcases leads_key tokens margins he.isKey hgap hp with ⟨q, hq, hkey⟩
  rcases he.readsAs (Nat.lt_succ_of_le hk) hr hq with ⟨q', hq', hvalue⟩
  refine ⟨q', hq', ?_⟩
  have htokens : ∀ front : List Token,
      front ++ [.key, .scalar true e.name, .value] ++ [.scalar e.plain e.text] =
        front ++ e.toTokens :=
    fun front => List.append_assoc front _ _
  -- the key up to the colon, then the value
  rw [Entry.line, List.append_assoc, List.cons_append, List.cons_append, ← htokens]
  exact hkey.trans hvalue

/-- The entries of a mapping are read to the end of the text when each one starts at the column of
the first. -/
theorem leads_entries (tokens : List Token) (margins : List Nat) {e : Entry} {es : List Entry}
    (he : ∀ d ∈ e :: es, d.Reads (k + 1)) (hp : margin ≤ k + 1) (hk : p.column = k) :
    ∃ q, q.column = 0 ∧
      Leads (3 * (es.length + 1)) (outside true tokens margin margins
          ⟨e.line ++ es.flatMap fun d => List.replicate k ' ' ++ d.line, p⟩)
        (outside true
          (tokens ++ (if margin ≤ k then [.blockMappingStart] else []) ++
            (e :: es).flatMap Entry.toTokens)
          (k + 1) (if margin ≤ k then margin :: margins else margins) ⟨[], q⟩) := by
  -- the first entry may open the block, so the margins are general; the others find it open
  induction es generalizing e p tokens margin margins with
  | nil =>
    rw [← hk] at he hp ⊢
    rcases leads_entry (r := []) tokens margins (he e List.mem_cons_self) hp (Nat.zero_le _)
      (fun _ h => nomatch h) with ⟨q, hq, hentry⟩
    refine ⟨q, hq, ?_⟩
    simp only [List.flatMap_cons, List.flatMap_nil, List.append_nil]
    rw [← List.append_nil e.line]
    exact hentry
  | cons d es ih =>
    have hd := he d (List.mem_cons_of_mem e List.mem_cons_self)
    have hes : ∀ d' ∈ d :: es, d'.Reads (k + 1) := fun d' h => he d' (List.mem_cons_of_mem e h)
    rw [← hk] at hp he
    rcases leads_entry tokens margins (he e List.mem_cons_self) hp (Nat.le_refl _)
      (hd.head_line (es.flatMap fun d => List.replicate k ' ' ++ d.line)) with ⟨q, hq, hentry⟩
    rw [hk] at hq hentry hp
    rcases ih _ _ hes (Nat.le_refl _) hq with ⟨q', hq', hentries⟩
    refine ⟨q', hq', ?_⟩
    rw [if_neg (Nat.not_succ_le_self k), if_neg (Nat.not_succ_le_self k), List.append_nil,
      List.append_assoc] at hentries
    rw [List.flatMap_cons, List.append_assoc (List.replicate k ' '), List.length_cons, Nat.mul_succ,
      Nat.add_comm]
    exact hentry.trans hentries

/-! ## The end -/

/-- At the end of the text both mappings are closed. -/
theorem run_end (tokens : List Token) (hp : p.column = 0) (limit : Nat) :
    run (limit + 1) (outside true tokens 3 [1, 0] ⟨[], p⟩) =
      some (tokens ++ [Token.blockEnd, .blockEnd, .streamEnd]).toArray := by
  have hskip : skipToToken false false true [] p = (⟨[], p⟩, true) := rfl
  rw [run, prepare_eq rfl hskip rfl]
  simp [outside, closeTo, inBrackets, closeBlocks, push, finish, dropKey, hp]

/-! ## Whole texts -/

theorem Entry.Reads.three_le_length {d : Entry} (hd : d.Reads margin) : 3 ≤ d.line.length := by
  have hne := List.length_pos_iff.mpr hd.isKey.ne_nil
  simp only [Entry.line, List.length_append, List.length_cons]
  omega

theorem three_mul_length_le {es : List Entry} (hes : ∀ d ∈ es, d.Reads margin) :
    3 * es.length ≤ (es.flatMap fun d => List.replicate k ' ' ++ d.line).length := by
  induction es with
  | nil => exact Nat.le_refl _
  | cons d es ih =>
    have hd := (hes d List.mem_cons_self).three_le_length
    have hes' := ih fun d' h => hes d' (List.mem_cons_of_mem d h)
    rw [List.flatMap_cons, List.length_append, List.length_append, List.length_cons]
    omega

/-- A mapping of two entries, the second of which holds a mapping. -/
def nested (first : Entry) (name : List Char) (es : List Entry) : List Char :=
  first.line ++ (name ++ ':' :: '\n' :: es.flatMap fun d => List.replicate 2 ' ' ++ d.line)

def nestedTokens (first : Entry) (name : List Char) (es : List Entry) : List Token :=
  .blockMappingStart :: (first.toTokens ++ .key :: .scalar true name :: .value ::
    .blockMappingStart :: (es.flatMap Entry.toTokens ++ [.blockEnd, .blockEnd, .streamEnd]))

theorem Entry.Reads.isAllowed_line {d : Entry} (hd : d.Reads margin) : ∀ c ∈ d.line, isAllowed c :=
  List.forall_mem_append.mpr ⟨hd.isKey.isAllowed,
    List.forall_mem_cons.mpr ⟨rfl, List.forall_mem_cons.mpr ⟨rfl, hd.allowed⟩⟩⟩

theorem isAllowed_nested {first : Entry} {es : List Entry} (hfirst : first.Reads 1)
    (hname : IsKey name) (hes : ∀ d ∈ es, d.Reads 3) : (nested first name es).all isAllowed := by
  have hlines : ∀ c ∈ es.flatMap fun d => List.replicate 2 ' ' ++ d.line, isAllowed c := by
    intro c hc
    rcases List.mem_flatMap.mp hc with ⟨d, hd, hc⟩
    cases List.mem_append.mp hc with
    | inl hc => rw [List.eq_of_mem_replicate hc]; rfl
    | inr hc => exact (hes d hd).isAllowed_line c hc
  rw [List.all_eq_true]
  exact List.forall_mem_append.mpr ⟨hfirst.isAllowed_line, List.forall_mem_append.mpr
    ⟨hname.isAllowed, List.forall_mem_cons.mpr ⟨rfl, List.forall_mem_cons.mpr ⟨rfl, hlines⟩⟩⟩⟩

theorem leads_nested {first e : Entry} {es : List Entry} (hfirst : first.Reads 1)
    (hname : IsKey name) (hes : ∀ d ∈ e :: es, d.Reads 3) :
    ∃ q tokens,
      Leads (5 + 3 * (es.length + 1)) (outside true [] 0 [] ⟨nested first name (e :: es), {}⟩)
        (outside true tokens 3 [1, 0] ⟨[], q⟩) ∧ q.column = 0 ∧
      tokens ++ [Token.blockEnd, .blockEnd, .streamEnd] = nestedTokens first name (e :: es) := by
  rcases leads_entry (p := {}) [] [] hfirst (Nat.zero_le 1) (Nat.le_refl 0)
    (hname.head_append (':' :: '\n' ::
      (e :: es).flatMap fun d => List.replicate 2 ' ' ++ d.line)) with ⟨p, hp, hversion⟩
  change Leads 3 _ (outside true (.blockMappingStart :: first.toTokens) 1 [0] _) at hversion
  have hmargin : 1 ≤ p.column + 1 := Nat.le_add_left 1 _
  rcases leads_key (.blockMappingStart :: first.toTokens) [0] hname
    (t := '\n' :: (e :: es).flatMap fun d => List.replicate 2 ' ' ++ d.line) rfl hmargin with
    ⟨p', -, hkey⟩
  -- the name of the inner mapping stands in the block that is open
  rw [hp, if_neg (by decide), if_neg (by decide), List.append_nil, List.flatMap_cons,
    List.append_assoc] at hkey
  have hfeed := hkey.trans (leads_lineFeed ((hes e List.mem_cons_self).head_line
    (es.flatMap fun d => List.replicate 2 ' ' ++ d.line)))
  -- its entries are indented by two, and open a block of their own
  have hopen : 1 ≤ 2 + 1 := by decide
  rcases leads_entries (p := p'.nextLine.advance 2)
    (.blockMappingStart :: first.toTokens ++ [.key, .scalar true name, .value]) [0] hes hopen rfl
    with ⟨q, hq, hentries⟩
  rw [if_pos (by decide), if_pos (by decide)] at hentries
  rw [List.flatMap_cons, List.append_assoc (List.replicate 2 ' ')] at hversion
  rw [nested, List.flatMap_cons, List.append_assoc (List.replicate 2 ' ')]
  refine ⟨q, _, (hversion.trans hfeed).trans hentries, hq, ?_⟩
  simp [nestedTokens]

theorem tokenize_nested {first e : Entry} {es : List Entry} (hfirst : first.Reads 1)
    (hname : IsKey name) (hes : ∀ d ∈ e :: es, d.Reads 3) :
    tokenize (nested first name (e :: es)) = some (nestedTokens first name (e :: es)).toArray := by
  rcases leads_nested hfirst hname hes with ⟨q, tokens, hleads, hq, htokens⟩
  have hlength : 5 + 3 * (es.length + 1) ≤ (nested first name (e :: es)).length := by
    have hline := hfirst.three_le_length
    have hlines := three_mul_length_le (k := 2) hes
    simp only [nested, List.length_append, List.length_cons] at hlines ⊢
    omega
  rcases Nat.exists_eq_add_of_le hlength with ⟨limit, hlimit⟩
  have hrun := hleads (limit + 1)
  rw [← Nat.add_assoc, ← hlimit, run_end tokens hq, htokens] at hrun
  exact hrun

end Lexer

end UnitGraph.Yaml
