import UnitGraph.SourceLine

/-! # Quoted strings

A string is written between quotes with the shortest escapes for quotes, backslashes and control
characters, and every other character as it is. Reading accepts every escape of the format, with a
surrogate pair as one character. A string can also be passed over without reading it, which accepts
escapes of lone surrogates too. A text that cannot be read is refused for the first problem met from
the left. -/

namespace UnitGraph.Json

/-! ## Why a text cannot be read -/

inductive Fault
  | truncated
  | malformed
  /-- The text is JSON, but not what is asked for; the cause is kept when it is a text that names
  no source line. -/
  | unfit (cause : Option SourceLine.Malformed)
  deriving DecidableEq, Repr

abbrev Fault.mismatch : Fault := .unfit none

namespace Quoted

/-! ## Writing -/

def escape (c : Char) : List Char :=
  match c with
  | '"' => ['\\', '"']
  | '\\' => ['\\', '\\']
  | '\x08' => ['\\', 'b']
  | '\t' => ['\\', 't']
  | '\n' => ['\\', 'n']
  | '\x0c' => ['\\', 'f']
  | '\r' => ['\\', 'r']
  | c => if c.toNat < 0x20 then '\\' :: 'u' :: Text.Numeral.padded 16 4 c.toNat else [c]

def encode (s : String) : List Char :=
  '"' :: s.toList.flatMap escape ++ ['"']

/-! ## Reading -/

def byteCount (s : List Char) : Nat :=
  (String.ofList s).utf8ByteSize

/-- The four hexadecimal digits at the start of a text. A text of fewer than four bytes ends too
early, whatever its characters are. -/
def hex (s : List Char) : Except Fault (Nat × List Char) :=
  match s with
  | a :: b :: c :: d :: rest =>
    match Text.Numeral.read? 16 [a, b, c, d] with
    | some n => .ok (n, rest)
    | none => .error .malformed
  | s => .error (if byteCount s < 4 then .truncated else .malformed)

def simpleEscape? : Char → Option Char
  | '"' => some '"'
  | '\\' => some '\\'
  | '/' => some '/'
  | 'b' => some '\x08'
  | 'f' => some '\x0c'
  | 'n' => some '\n'
  | 'r' => some '\r'
  | 't' => some '\t'
  | _ => none

/-- The second half of a surrogate pair, after the first. -/
def trailing (lead : Nat) : List Char → Except Fault (Char × List Char)
  | '\\' :: 'u' :: s => do
    let (n, rest) ← hex s
    if 0xDC00 ≤ n ∧ n ≤ 0xDFFF then
      return (Char.ofNat (0x10000 + (lead - 0xD800) * 0x400 + (n - 0xDC00)), rest)
    else
      throw .malformed
  -- The text ends before it is known whether another escape follows.
  | [] | ['\\'] => .error .truncated
  | _ => .error .malformed

def unescape : List Char → Except Fault (Char × List Char)
  | [] => .error .truncated
  | 'u' :: s => do
    let (n, rest) ← hex s
    -- A second half may only follow a first one.
    if 0xDC00 ≤ n ∧ n ≤ 0xDFFF then
      throw .malformed
    else if 0xD800 ≤ n ∧ n ≤ 0xDBFF then
      trailing n rest
    else
      return (Char.ofNat n, rest)
  | c :: s =>
    match simpleEscape? c with
    | some c => .ok (c, s)
    | none => .error .malformed

theorem hex_length {s rest : List Char} {n : Nat} (h : hex s = .ok (n, rest)) :
    rest.length ≤ s.length := by
  unfold hex at h
  split at h
  · split at h
    · cases h
      simp only [List.length_cons]
      omega
    · cases h
  · cases h

theorem trailing_length {lead : Nat} {s rest : List Char} {c : Char}
    (h : trailing lead s = .ok (c, rest)) : rest.length ≤ s.length := by
  unfold trailing at h
  split at h
  · rename_i s
    simp only [bind, Except.bind] at h
    split at h
    · cases h
    · rename_i v hv
      split at h
      · have := hex_length hv
        simp only [pure, Except.pure, Except.ok.injEq, Prod.mk.injEq] at h
        simp only [← h.2, List.length_cons]
        omega
      · cases h
  all_goals cases h

/-- Reading an escape leaves no more than there was. -/
theorem unescape_length {s rest : List Char} {c : Char} (h : unescape s = .ok (c, rest)) :
    rest.length ≤ s.length := by
  unfold unescape at h
  split at h
  · cases h
  · rename_i s
    simp only [bind, Except.bind] at h
    split at h
    · cases h
    · rename_i v hv
      have hx := hex_length hv
      split at h
      · cases h
      · split at h
        · have := trailing_length h
          simp only [List.length_cons]
          omega
        · simp only [pure, Except.pure, Except.ok.injEq, Prod.mk.injEq] at h
          simp only [← h.2, List.length_cons]
          omega
  · split at h
    · cases h
      simp
    · cases h

def decode (s : List Char) : Except Fault (List Char × List Char) :=
  match s with
  | [] => .error .truncated
  | '"' :: rest => .ok ([], rest)
  | '\\' :: s =>
    match _h : unescape s with
    | .error fault => .error fault
    | .ok (c, rest) => (decode rest).map fun (cs, rest) => (c :: cs, rest)
  | c :: s =>
    if c.toNat < 0x20 then .error .malformed
    else (decode s).map fun (cs, rest) => (c :: cs, rest)
termination_by s.length
decreasing_by
  · have := unescape_length _h
    simp only [List.length_cons]
    omega
  · simp

def skip (s : List Char) : Except Fault (List Char) :=
  match s with
  | [] => .error .truncated
  | '"' :: rest => .ok rest
  | '\\' :: [] => .error .truncated
  -- The digits have to be hexadecimal, but halves of pairs need not match: nothing is decoded.
  | '\\' :: 'u' :: s =>
    match _h : hex s with
    | .error fault => .error fault
    | .ok (_, rest) => skip rest
  | '\\' :: c :: s => if (simpleEscape? c).isSome then skip s else .error .malformed
  | c :: s => if c.toNat < 0x20 then .error .malformed else skip s
termination_by s.length
decreasing_by
  all_goals simp only [List.length_cons]
  · have := hex_length _h
    omega
  · omega
  · omega

end Quoted

end UnitGraph.Json
