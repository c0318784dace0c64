import UnitGraph.Json.Document
import UnitGraph.Json.Reader
import UnitGraph.Proofs.Json.Number
import UnitGraph.Proofs.Json.Quoted

/-!
# Documents read back

The text of a document without space holds the whole document: its draft has every item and member
in place and no fault, and nothing of the text is left over.
-/

namespace UnitGraph.Json

namespace Document

mutual

def draft : Document → Draft
  | .null => .null
  | .bool value => .bool value
  | .number n => .number (Number.ofLiteral (.ofNat n)) none
  | .text s => .text (.ok s) none
  | .array ds => .array (draftItems ds)
  | .object ms => .object (draftMembers ms)

def draftItems : List Document → Items
  | [] => .stop .closed
  | d :: ds => .cons d.draft (draftItems ds)

def draftMembers : List (String × Document) → Members
  | [] => .stop .closed
  | (name, d) :: ms => .cons (.ok name) d.draft (draftMembers ms)

end

/-! ## Single characters -/

/-- A value starts with a character that is no space and closes nothing. -/
theorem compact_eq_cons (d : Document) :
    ∃ c s, d.compact = c :: s ∧ Draft.isSpace c = false ∧ c ≠ ']' := by
  cases d with
  | null => exact ⟨_, _, rfl, by decide, by decide⟩
  | bool value => cases value <;> exact ⟨_, _, rfl, by decide, by decide⟩
  | number n =>
    -- a number begins with a digit, which is neither blank nor a bracket
    obtain ⟨c, s, hcs, hdigit⟩ := Text.Numeral.digits_eq_cons n
    refine ⟨c, s, by rw [compact, hcs], ?_, ?_⟩
    · unfold Draft.isSpace
      simp only [Bool.or_eq_false_iff, decide_eq_false_iff_not]
      refine ⟨⟨⟨?_, ?_⟩, ?_⟩, ?_⟩ <;> rintro rfl <;> exact absurd hdigit (by decide)
    · rintro rfl
      exact absurd hdigit (by decide)
  | text s => exact ⟨'"', _, rfl, by decide, by decide⟩
  | array ds => cases ds <;> exact ⟨'[', _, rfl, by decide, by decide⟩
  | object ms => rcases ms with _ | ⟨⟨name, d⟩, ms⟩ <;> exact ⟨'{', _, rfl, by decide, by decide⟩

theorem skipSpace_compact (d : Document) (rest : List Char) :
    Draft.skipSpace (d.compact ++ rest) = d.compact ++ rest := by
  obtain ⟨c, s, hd, hc, -⟩ := d.compact_eq_cons
  rw [hd, List.cons_append, Draft.skipSpace, List.dropWhile_cons_of_neg (by simp [hc])]

theorem ends_compactItems (ds : List Document) (rest : List Char) :
    Number.Ends (compactItems ds ++ rest) := by
  cases ds <;> simp [compactItems, Number.Ends]

theorem ends_compactMembers (ms : List (String × Document)) (rest : List Char) :
    Number.Ends (compactMembers ms ++ rest) := by
  cases ms <;> simp [compactMembers, Number.Ends]

theorem content_flatMap (s : String) (rest : List Char) :
    Draft.content (s.toList.flatMap Quoted.escape ++ '"' :: rest) = .ok s := by
  rw [Draft.content, Quoted.decode_flatMap]
  simp [Except.map]

theorem ofText_flatMap (s : String) (rest : List Char) :
    Draft.ofText (s.toList.flatMap Quoted.escape ++ '"' :: rest) = (.text (.ok s) none, rest) := by
  rw [Draft.ofText, Quoted.skip_flatMap, content_flatMap]

/-! ## One step of the reader

What it does at a value, once it is known what the value starts with. -/

theorem ofChars_text (fuel : Nat) (s : List Char) :
    Draft.ofChars (fuel + 1) ('"' :: s) = Draft.ofText s := rfl

theorem ofChars_array (fuel : Nat) (s : List Char) : Draft.ofChars (fuel + 1) ('[' :: s) =
    (.array (Draft.firstItem fuel (Draft.skipSpace s)).1,
      (Draft.firstItem fuel (Draft.skipSpace s)).2) := rfl

theorem ofChars_object (fuel : Nat) (s : List Char) : Draft.ofChars (fuel + 1) ('{' :: '"' :: s) =
    (.object (Draft.member fuel s).1, (Draft.member fuel s).2) := rfl

theorem ofChars_digits {n fuel : Nat} {rest : List Char} (hrest : Number.Ends rest) :
    Draft.ofChars (fuel + 1) (Text.Numeral.digits 10 n ++ rest) =
      ((Document.number n).draft, rest) := by
  have hskip := skipSpace_compact (.number n) rest
  rw [compact] at hskip
  have hnumber : Draft.ofNumber (Text.Numeral.digits 10 n ++ rest) =
      ((Document.number n).draft, rest) := by
    rw [Draft.ofNumber, Number.literal_digits n hrest]
    rfl
  rw [← hnumber, Draft.ofChars, hskip]
  obtain ⟨c, s, hcs, hdigit⟩ := Text.Numeral.digits_eq_cons n
  rw [hcs, List.cons_append]
  -- a digit is none of the other characters
  split <;> rename_i h <;> cases h
  case h_8 => rw [if_pos (.inr hdigit)]
  all_goals exact absurd hdigit (by decide)

theorem firstItem_compact (fuel : Nat) (d : Document) (s : List Char) :
    Draft.firstItem (fuel + 1) (d.compact ++ s) = Draft.item fuel (d.compact ++ s) := by
  obtain ⟨c, t, hd, -, hc⟩ := d.compact_eq_cons
  rw [hd, List.cons_append, Draft.firstItem]
  · intro h
    cases h
  · intro _ h
    cases h
    exact hc rfl

section Steps

variable {fuel : Nat} {s t rest : List Char} {name : String} {value : Draft} {items : Items}
  {members : Members}

theorem item_closed (h : Draft.ofChars fuel s = (value, ']' :: rest)) :
    Draft.item (fuel + 1) s = (.cons value (.stop .closed), rest) := by
  rw [Draft.item, h]
  rfl

theorem item_next (h : Draft.ofChars fuel s = (value, ',' :: t))
    (h' : Draft.item fuel t = (items, rest)) :
    Draft.item (fuel + 1) s = (.cons value items, rest) := by
  rw [Draft.item, h]
  show (Items.cons value (Draft.item fuel t).1, (Draft.item fuel t).2) = _
  rw [h']

theorem member_closed (h : Draft.ofChars fuel s = (value, '}' :: rest)) :
    Draft.member (fuel + 1) (name.toList.flatMap Quoted.escape ++ '"' :: ':' :: s) =
      (.cons (.ok name) value (.stop .closed), rest) := by
  rw [Draft.member, Quoted.skip_flatMap, content_flatMap]
  simp only [show Draft.skipSpace (':' :: s) = ':' :: s from rfl, h]
  rfl

theorem member_next (h : Draft.ofChars fuel s = (value, ',' :: '"' :: t))
    (h' : Draft.member fuel t = (members, rest)) :
    Draft.member (fuel + 1) (name.toList.flatMap Quoted.escape ++ '"' :: ':' :: s) =
      (.cons (.ok name) value members, rest) := by
  rw [Draft.member, Quoted.skip_flatMap, content_flatMap]
  simp only [show Draft.skipSpace (':' :: s) = ':' :: s from rfl, h]
  show (Members.cons (.ok name) value (Draft.member fuel t).1, (Draft.member fuel t).2) = _
  rw [h']

end Steps

/-! ## Whole documents -/

/-- With this fuel the reader gets through any document whose text is at most half as long. -/
structure ReadsBack (fuel : Nat) : Prop where
  value : ∀ (d : Document) rest, 2 * d.compact.length ≤ fuel → Number.Ends rest →
    Draft.ofChars fuel (d.compact ++ rest) = (d.draft, rest)
  first : ∀ (d : Document) ds rest, 2 * (d.compact ++ compactItems ds).length < fuel →
    Draft.firstItem fuel (d.compact ++ (compactItems ds ++ rest)) =
      (.cons d.draft (draftItems ds), rest)
  item : ∀ (d : Document) ds rest, 2 * (d.compact ++ compactItems ds).length ≤ fuel →
    Draft.item fuel (d.compact ++ (compactItems ds ++ rest)) =
      (.cons d.draft (draftItems ds), rest)
  member : ∀ name (d : Document) ms rest, 2 * (d.compact ++ compactMembers ms).length ≤ fuel →
    Draft.member fuel (name.toList.flatMap Quoted.escape ++ '"' :: ':' ::
      (d.compact ++ (compactMembers ms ++ rest))) =
        (.cons (.ok name) d.draft (draftMembers ms), rest)

theorem length_compact_pos (d : Document) : 0 < d.compact.length := by
  obtain ⟨c, s, hd, -⟩ := d.compact_eq_cons
  rw [hd, List.length_cons]
  omega

namespace ReadsBack

variable {fuel : Nat}

theorem zero : ReadsBack 0 := by
  constructor
  -- every text has a character, so with no fuel there is nothing to read back
  case value =>
    intro d _ h
    have hpos := length_compact_pos d
    omega
  case first =>
    intro _ _ _ h
    omega
  case item =>
    intro d _ _ h
    have hpos := length_compact_pos d
    rw [List.length_append] at h
    omega
  case member =>
    intro _ d _ _ h
    have hpos := length_compact_pos d
    rw [List.length_append] at h
    omega

theorem value_succ (h : ReadsBack fuel) (d : Document) (rest : List Char)
    (hfuel : 2 * d.compact.length ≤ fuel + 1) (hrest : Number.Ends rest) :
    Draft.ofChars (fuel + 1) (d.compact ++ rest) = (d.draft, rest) := by
  cases d with
  | null => rfl
  | bool value => cases value <;> rfl
  | number n => exact ofChars_digits hrest
  | text s =>
    rw [compact, Quoted.encode, List.cons_append, List.cons_append, ofChars_text, List.append_assoc]
    exact ofText_flatMap s rest
  | array ds =>
    rcases ds with _ | ⟨d, ds⟩
    · simp only [compact, List.length_cons, List.length_nil] at hfuel
      -- two characters for the brackets leave fuel for the look at the second
      obtain ⟨fuel, rfl⟩ := Nat.exists_eq_succ_of_ne_zero (show fuel ≠ 0 by omega)
      rfl
    · have hfirst := h.first d ds rest
      simp only [compact, List.length_append, List.length_cons] at hfuel hfirst
      rw [compact, List.cons_append, List.cons_append, List.append_assoc, ofChars_array,
        skipSpace_compact, hfirst (by omega)]
      rfl
  | object ms =>
    rcases ms with _ | ⟨⟨name, d⟩, ms⟩
    · rfl
    · -- one step of fuel opens the object, the members are read with what is left
      have hmember := h.member name d ms rest
      simp only [compact, Quoted.encode, List.length_append, List.length_cons] at hfuel hmember
      simp only [compact, Quoted.encode, List.cons_append, List.append_assoc, List.nil_append]
      rw [ofChars_object, hmember (by omega)]
      rfl

theorem item_succ (h : ReadsBack fuel) (d : Document) (ds : List Document) (rest : List Char)
    (hfuel : 2 * (d.compact ++ compactItems ds).length ≤ fuel + 1) :
    Draft.item (fuel + 1) (d.compact ++ (compactItems ds ++ rest)) =
      (.cons d.draft (draftItems ds), rest) := by
  have hvalue := h.value d (compactItems ds ++ rest)
  -- behind a value there is a comma or the closing bracket, so that no number runs on
  have hends := ends_compactItems ds rest
  rw [List.length_append] at hfuel
  cases ds with
  | nil =>
    rw [compactItems, List.length_singleton] at hfuel
    exact item_closed (hvalue (by omega) hends)
  | cons d' ds =>
    simp only [compactItems, List.length_append, List.length_cons, List.cons_append,
      List.append_assoc] at hfuel hends hvalue ⊢
    exact item_next (hvalue (by omega) hends) (h.item d' ds rest (by simp; omega))

theorem member_succ (h : ReadsBack fuel) (name : String) (d : Document)
    (ms : List (String × Document)) (rest : List Char)
    (hfuel : 2 * (d.compact ++ compactMembers ms).length ≤ fuel + 1) :
    Draft.member (fuel + 1) (name.toList.flatMap Quoted.escape ++ '"' :: ':' ::
      (d.compact ++ (compactMembers ms ++ rest))) =
        (.cons (.ok name) d.draft (draftMembers ms), rest) := by
  have hvalue := h.value d (compactMembers ms ++ rest)
  -- behind a value there is a comma or the closing brace, so that no number runs on
  have hends := ends_compactMembers ms rest
  rw [List.length_append] at hfuel
  rcases ms with _ | ⟨⟨name', d'⟩, ms⟩
  · rw [compactMembers, List.length_singleton] at hfuel
    exact member_closed (hvalue (by omega) hends)
  · simp only [compactMembers, Quoted.encode, List.length_append, List.length_cons,
      List.cons_append, List.append_assoc, List.nil_append] at hfuel hends hvalue ⊢
    exact member_next (hvalue (by omega) hends) (h.member name' d' ms rest (by simp; omega))

theorem all (fuel : Nat) : ReadsBack fuel := by
  induction fuel with
  | zero => exact zero
  | succ fuel ih =>
    constructor
    case value => exact ih.value_succ
    case first =>
      intro d ds rest hfuel
      rw [firstItem_compact]
      exact ih.item d ds rest (by omega)
    case item => exact ih.item_succ
    case member => exact ih.member_succ

end ReadsBack

theorem draft_render (d : Document) : Json.draft d.render = (d.draft, []) := by
  have h := (ReadsBack.all (3 * d.compact.length + 3)).value d [] (by omega) (by simp [Number.Ends])
  rw [List.append_nil] at h
  rw [Json.draft, render, String.toList_ofList]
  exact h

/-- To read a text that was written is to read the document. -/
theorem decode_render {α : Type} {read : Reader α} {a : α} {d : Document}
    (h : read d.draft = .ok a) : decode read d.render = .ok a := by
  rw [decode, draft_render]
  simp only [h, bind, Except.bind]
  rfl

end Document

end UnitGraph.Json
