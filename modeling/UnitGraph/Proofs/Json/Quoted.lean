import UnitGraph.Json.Quoted
import UnitGraph.Proofs.Text

/-!
# Strings read back

What is written for a character is one escape or the character itself, and in either case it is read
as that character, whatever follows.  So a string may hold any characters at all.
-/

namespace UnitGraph.Json.Quoted

variable {c : Char} {s rest : List Char} {n : Nat}

theorem hex_padded (h : n < 0x10000) :
    hex (Text.Numeral.padded 16 4 n ++ rest) = .ok (n, rest) := by
  -- padding to four digits lengthens only
  have hfour : (Text.Numeral.digits 16 n).length ≤ 4 := by
    rw [Text.Numeral.digits_eq_toDigits (by omega),
      Nat.length_toDigits_le_iff (by omega) (by omega)]
    omega
  have hlen := Text.Numeral.length_padded hfour
  have hread := Text.Numeral.read?_padded (show 2 ≤ 16 by omega) (by omega) 4 n
  match hp : Text.Numeral.padded 16 4 n with
  | [a, b, c, d] =>
    rw [hp] at hread
    simp [hex, hread]
  | [] | [_] | [_, _] | [_, _, _] | _ :: _ :: _ :: _ :: _ :: _ =>
    rw [hp] at hlen
    simp at hlen

/-! ## The next character -/

theorem decode_backslash (h : unescape s = .ok (c, rest)) :
    decode ('\\' :: s) = (decode rest).map fun (cs, rest) => (c :: cs, rest) := by
  rw [decode]
  split
  · rename_i h'
    simp [h] at h'
  · rename_i h'
    cases h.symm.trans h'
    rfl

theorem unescape_control (h : c.toNat < 0x20) :
    unescape ('u' :: Text.Numeral.padded 16 4 c.toNat ++ rest) = .ok (c, rest) := by
  rw [List.cons_append, unescape, hex_padded (by omega)]
  simp only [bind, Except.bind]
  rw [if_neg (by omega), if_neg (by omega), Char.ofNat_toNat]
  rfl

theorem decode_escape (c : Char) (s : List Char) :
    decode (escape c ++ s) = (decode s).map fun (cs, rest) => (c :: cs, rest) := by
  unfold escape
  split
  -- no short escape applies: a control character is written in hexadecimal, others as they are
  case h_8 hquote hbackslash _ _ _ _ _ =>
    split
    · rename_i hc
      exact decode_backslash (unescape_control hc)
    · rename_i hc
      rw [List.singleton_append, decode]
      · rw [if_neg hc]
      · exact hquote
      · exact hbackslash
  all_goals exact decode_backslash rfl

theorem skip_escape (c : Char) (s : List Char) : skip (escape c ++ s) = skip s := by
  unfold escape
  split
  -- only a plain character is written without a backslash, and no quote or backslash is plain
  case h_8 hquote hbackslash _ _ _ _ _ =>
    split
    · rename_i hc
      rw [List.cons_append, List.cons_append, skip]
      have hhex : hex (Text.Numeral.padded 16 4 c.toNat ++ s) = .ok (c.toNat, s) :=
        hex_padded (by omega)
      split
      · rename_i h
        simp [hhex] at h
      · rename_i h
        cases hhex.symm.trans h
        rfl
    · rename_i hc
      rw [List.singleton_append, skip]
      · rw [if_neg hc]
      · exact hquote
      · exact fun h _ => hbackslash h
      · exact fun _ h _ => hbackslash h
      · exact fun _ _ h _ => hbackslash h
  all_goals simp [skip, simpleEscape?]

/-! ## Whole strings -/

theorem decode_flatMap (cs rest : List Char) :
    decode (cs.flatMap escape ++ '"' :: rest) = .ok (cs, rest) := by
  induction cs with
  | nil =>
    rw [List.flatMap_nil, List.nil_append, decode]
  | cons c cs ih =>
    rw [List.flatMap_cons, List.append_assoc, decode_escape, ih]
    rfl

theorem skip_flatMap (cs rest : List Char) :
    skip (cs.flatMap escape ++ '"' :: rest) = .ok rest := by
  induction cs with
  | nil => rw [List.flatMap_nil, List.nil_append, skip]
  | cons c cs ih => rw [List.flatMap_cons, List.append_assoc, skip_escape, ih]

end UnitGraph.Json.Quoted
