import UnitGraph.Proofs.Count
import UnitGraph.Yaml.Value

/-!
# What values a text can have

The value of a document is well-formed at every depth: its integers take 64 bits, and no mapping in
it has two equal keys.  So a name stands for one entry of a mapping at most, unless a tag hides
that two keys are the same text.
-/

namespace UnitGraph.Yaml.Value

variable {α β : Type} {v : Value} {entries : List (Value × Value)}

inductive WellFormed : Value → Prop
  | null : WellFormed .null
  | bool (b : Bool) : WellFormed (.bool b)
  | integer {n : Int} (lower : Int64.minValue.toInt ≤ n) (upper : n < UInt64.size) :
      WellFormed (.integer n)
  | float (x : Float) : WellFormed (.float x)
  | text (s : String) : WellFormed (.text s)
  | sequence {items : List Value} (parts : ∀ v ∈ items, WellFormed v) :
      WellFormed (.sequence items)
  | mapping {entries : List (Value × Value)} (keys : ∀ e ∈ entries, WellFormed e.1)
      (values : ∀ e ∈ entries, WellFormed e.2)
      (differ : entries.Pairwise fun e e' => same e'.1 e.1 = false) : WellFormed (.mapping entries)
  | tagged (tag : String) {v : Value} (value : WellFormed v) : WellFormed (.tagged tag v)

theorem WellFormed.untagged (h : v.WellFormed) : v.untagged.WellFormed := by
  induction h with
  | tagged tag _ ih => exact ih
  | null => exact .null
  | bool b => exact .bool b
  | integer lower upper => exact .integer lower upper
  | float x => exact .float x
  | text s => exact .text s
  | sequence parts _ => exact .sequence parts
  | mapping keys values differ _ _ => exact .mapping keys values differ

/-! ## Scalars -/

theorem wellFormed_ofScalar? {x : Scalar} (h : ofScalar? x = some v) : v.WellFormed := by
  cases x with
  | null => cases h; exact .null
  | bool b => cases h; exact .bool b
  | integer n =>
    rw [ofScalar?] at h
    split at h
    · rename_i hn
      cases h
      exact .integer hn.1 hn.2
    · cases h
  | float x => cases h; exact .float x
  | text s => cases h; exact .text _

theorem wellFormed_ofUntaggedScalar? {plain : Bool} {s : List Char}
    (h : ofUntaggedScalar? plain s = some v) : v.WellFormed := by
  rw [ofUntaggedScalar?] at h
  split at h
  · exact wellFormed_ofScalar? h
  · cases h
    exact .text _

theorem wellFormed_ofTaggedScalar? {tag : TagBytes} {plain : Bool} {s : List Char}
    (h : ofTaggedScalar? tag plain s = some v) : v.WellFormed := by
  rw [ofTaggedScalar?] at h
  -- the tag alone decides how the text is read
  split_ifs at h
  · rcases Option.map_eq_some_iff.mp h with ⟨b, _, rfl⟩
    exact .bool b
  · rcases Option.bind_eq_some_iff.mp h with ⟨n, _, hn⟩
    exact wellFormed_ofScalar? hn
  · rcases Option.map_eq_some_iff.mp h with ⟨x, _, rfl⟩
    exact .float x
  · cases h
    exact .null
  · exact wellFormed_ofScalar? h
  · cases h
    exact .text _

theorem wellFormed_ofScalarNode? {tag : Option TagBytes} {plain : Bool} {s : List Char}
    (h : ofScalarNode? tag plain s = some v) : v.WellFormed := by
  rw [ofScalarNode?.eq_def] at h
  split at h
  · exact wellFormed_ofUntaggedScalar? h
  · split at h
    · rcases Option.map_eq_some_iff.mp h with ⟨x, hx, rfl⟩
      exact .tagged _ (wellFormed_ofUntaggedScalar? hx)
    · exact wellFormed_ofTaggedScalar? h

/-! ## Nodes -/

/-- All that the replacement of aliases can come to has the property. -/
def Yields (x : Expand α) (p : α → Prop) : Prop :=
  ∀ n a n', x.run n = some (a, n') → p a

variable {p : α → Prop} {q : β → Prop} {expand : Node → Expand Value}

theorem yields_pure {a : α} (h : p a) : Yields (pure a) p := by
  intro n b n' hb
  cases hb
  exact h

theorem yields_failure : Yields (failure : Expand α) p := by
  intro n b n' hb
  cases hb

theorem yields_lift {x : Option α} (h : ∀ a, x = some a → p a) :
    Yields (StateT.lift x : Expand α) p := by
  intro n b n' hb
  rw [StateT.run_lift] at hb
  rcases Option.bind_eq_some_iff.mp hb with ⟨a, ha, hab⟩
  cases hab
  exact h _ ha

theorem Yields.bind {x : Expand α} {f : α → Expand β} (hx : Yields x p)
    (hf : ∀ a, p a → Yields (f a) q) : Yields (x >>= f) q := by
  intro n b n' hb
  rw [StateT.run_bind] at hb
  rcases Option.bind_eq_some_iff.mp hb with ⟨⟨a, k⟩, ha, hab⟩
  exact hf a (hx n a k ha) k b n' hab

theorem yields_mapM (hexpand : ∀ node, Yields (expand node) WellFormed) (items : List Node) :
    Yields (items.mapM expand) fun vs => ∀ v ∈ vs, WellFormed v := by
  induction items with
  | nil => exact yields_pure fun v hv => absurd hv List.not_mem_nil
  | cons node items ih =>
    rw [List.mapM_cons]
    exact (hexpand node).bind fun v hv => ih.bind fun vs hvs =>
      yields_pure (List.forall_mem_cons.mpr ⟨hv, hvs⟩)

/-- An entry is added behind entries whose keys are all different from its own. -/
theorem yields_addEntries (hexpand : ∀ node, Yields (expand node) WellFormed)
    (rest : List (Node × Node)) {done : List (Value × Value)}
    (hdone : WellFormed (.mapping done.reverse)) :
    Yields (addEntries expand done rest) fun entries => WellFormed (.mapping entries) := by
  -- the entries done are general: their keys are different, and stay so
  induction rest generalizing done with
  | nil => exact yields_pure hdone
  | cons e rest ih =>
    cases hdone with
    | mapping keys values differ =>
      refine (hexpand e.1).bind fun key hkey => ?_
      -- a key that is there already is an error
      cases hany : done.any (same key ·.1) with
      | true => exact yields_failure.bind (p := fun _ => False) fun _ h => h.elim
      | false =>
        refine (hexpand e.2).bind fun value hvalue => ih ?_
        rw [List.reverse_cons]
        have hfresh : ∀ d ∈ done.reverse, same key d.1 = false := by
          intro d hd
          exact Bool.eq_false_iff.mpr (List.any_eq_false.mp hany d (List.mem_reverse.mp hd))
        refine .mapping ?_ ?_ (List.pairwise_append.mpr ⟨differ, List.pairwise_singleton _ _, ?_⟩)
        · exact List.forall_mem_append.mpr ⟨keys, List.forall_mem_singleton.mpr hkey⟩
        · exact List.forall_mem_append.mpr ⟨values, List.forall_mem_singleton.mpr hvalue⟩
        · intro d hd d' hd'
          rw [List.mem_singleton.mp hd']
          exact hfresh d hd

theorem wellFormed_tagCollection (tag : Option TagBytes) (h : v.WellFormed) :
    (tagCollection tag v).WellFormed := by
  unfold tagCollection
  split
  · exact .tagged _ h
  · exact h

theorem yields_ofNodeWith {expand : Option (Node → Expand Value)}
    (hexpand : ∀ f, expand = some f → ∀ node, Yields (f node) WellFormed) (node : Node) :
    Yields (ofNodeWith expand node) WellFormed := by
  -- only scalars are values by themselves; an alias has been followed before
  match node with
  | .scalar tag plain s => exact yields_lift fun v hv => wellFormed_ofScalarNode? hv
  | .sequence tag items =>
    exact (yields_lift hexpand).bind fun f hf => (yields_mapM hf items).bind fun vs hvs =>
      yields_pure (wellFormed_tagCollection tag (.sequence hvs))
  | .mapping tag entries =>
    have hempty : WellFormed (.mapping ([] : List (Value × Value)).reverse) :=
      .mapping (fun e he => nomatch he) (fun e he => nomatch he) .nil
    exact (yields_lift hexpand).bind fun f hf => (yields_addEntries hf entries hempty).bind
      fun es hes => yields_pure (wellFormed_tagCollection tag hes)
  | .alias slot => exact yields_failure

theorem yields_ofNode (doc : Document) (depth : Nat) (node : Node) :
    Yields (ofNode doc depth node) WellFormed := by
  -- what is inside a node is one level less deep, and an alias stays on its level
  have hlevel : ∀ expand : Option (Node → Expand Value),
      (∀ f, expand = some f → ∀ node, Yields (f node) WellFormed) →
      ∀ slot, Yields (do ofNodeWith expand (← follow doc slot)) WellFormed := by
    intro expand hexpand slot
    exact Yields.bind (p := fun _ => True) (fun _ _ _ _ => trivial) fun n _ =>
      yields_ofNodeWith hexpand n
  induction depth generalizing node with
  | zero =>
    have hnone : ∀ f, (none : Option (Node → Expand Value)) = some f →
        ∀ node, Yields (f node) WellFormed := fun f hf => nomatch hf
    match node with
    | .alias slot => exact hlevel none hnone slot
    | .scalar .. | .sequence .. | .mapping .. => exact yields_ofNodeWith hnone _
  | succ depth ih =>
    have hsome : ∀ f, some (ofNode doc depth) = some f →
        ∀ node, Yields (f node) WellFormed := by
      intro f hf
      rw [← Option.some.inj hf]
      exact ih
    match node with
    | .alias slot => exact hlevel _ hsome slot
    | .scalar .. | .sequence .. | .mapping .. => exact yields_ofNodeWith hsome _

/-- Whatever is read from a text is well-formed. -/
theorem wellFormed_read? {text : String} (h : read? text = some v) : v.WellFormed := by
  unfold read? at h
  dsimp only at h
  split at h
  · cases h
  · rcases Option.bind_eq_some_iff.mp h with ⟨tokens, _, h⟩
    rcases Option.bind_eq_some_iff.mp h with ⟨doc, _, h⟩
    rcases Option.map_eq_some_iff.mp h with ⟨⟨v, n⟩, hrun, rfl⟩
    exact yields_ofNode doc 128 doc.root _ v n hrun

/-! ## Names of entries -/

/-- The key is the name, whatever tags stand before it. -/
def Spells (key : Value) (name : String) : Prop :=
  key.untagged = .text name

def HasKey (v : Value) (name : String) (x : Value) : Prop :=
  ∃ entries, v.untagged = .mapping entries ∧ (.text name, x) ∈ entries

def Gives (v : Value) (name : String) (x : Value) : Prop :=
  ∃ entries, v.untagged = .mapping entries ∧ ∃ key, (key, x) ∈ entries ∧ key.Spells name

/-- Why the entries of a value do not go by some names: it has no entries, or one that goes by none
of the names, or two that go by the same one.  The last takes a tag on one of the keys. -/
inductive Misnamed {ι : Type} (name : ι → String) (v : Value) : Prop
  | shape (hnull : v.untagged ≠ .null) (hmapping : ∀ entries, v.untagged ≠ .mapping entries)
  | unknown {entries : List (Value × Value)} {e : Value × Value}
      (hv : v.untagged = .mapping entries) (he : e ∈ entries) (h : ∀ i, ¬e.1.Spells (name i))
  | repeated {entries : List (Value × Value)} {e e' : Value × Value} {i : ι}
      (hv : v.untagged = .mapping entries) (hee : [e, e'].Sublist entries)
      (he : e.1.Spells (name i)) (he' : e'.1.Spells (name i))
      (htag : ∃ tag x, e.1 = .tagged tag x ∨ e'.1 = .tagged tag x)

variable {key w x : Value} {s : String}

theorem asText?_eq_some : v.asText? = some s ↔ v.Spells s := by
  rw [asText?, Spells]
  cases v.untagged <;> simp

theorem Spells.eq_or_tagged (h : key.Spells s) : key = .text s ∨ ∃ tag x, key = .tagged tag x := by
  cases key with
  | tagged tag x => exact .inr ⟨tag, x, rfl⟩
  | text t => exact .inl h
  | _ => cases h

theorem WellFormed.of_gives (h : v.WellFormed) (hx : v.Gives s x) : x.WellFormed := by
  rcases hx with ⟨entries, hv, key, hmem, _⟩
  have huntagged := h.untagged
  rw [hv] at huntagged
  cases huntagged with
  | mapping _ values _ => exact values (key, x) hmem

theorem HasKey.gives (h : v.HasKey s x) : v.Gives s x := by
  rcases h with ⟨entries, hv, hmem⟩
  exact ⟨entries, hv, .text s, hmem, rfl⟩

theorem WellFormed.of_hasKey (h : v.WellFormed) (hx : v.HasKey s x) : x.WellFormed :=
  h.of_gives hx.gives

/-- Of two entries whose keys spell the same name, one has a tag. -/
theorem WellFormed.tagged_of_spells {e e' : Value × Value} (h : WellFormed (.mapping entries))
    (hee : [e, e'].Sublist entries) (he : e.1.Spells s) (he' : e'.1.Spells s) :
    ∃ tag x, e.1 = .tagged tag x ∨ e'.1 = .tagged tag x := by
  cases h with
  | mapping _ _ differ =>
    have hsame : same e'.1 e.1 = false := List.pairwise_iff_forall_sublist.mp differ hee
    rcases he.eq_or_tagged with hk | ⟨tag, x, hk⟩
    · rcases he'.eq_or_tagged with hk' | ⟨tag, x, hk'⟩
      · rw [hk, hk', same, decide_eq_false_iff_not] at hsame
        exact absurd rfl hsame
      · exact ⟨tag, x, .inr hk'⟩
    · exact ⟨tag, x, .inl hk⟩

/-! ## Look-ups -/

theorem asCount?_eq_some {n : Count} : v.asCount? = some n ↔ v.untagged = .integer n.toNat := by
  rw [asCount?.eq_def]
  cases v.untagged with
  | integer k =>
    simp only [Option.ite_none_right_eq_some, Count.ofNat?_eq_some, Value.integer.injEq]
    omega
  | _ => simp

theorem WellFormed.asCount?_eq_none (h : v.WellFormed) :
    v.asCount? = none ↔ ∀ n : Nat, v.untagged ≠ .integer n := by
  constructor
  · intro hnone n hv
    have huntagged := h.untagged
    rw [hv] at huntagged
    -- an integer that was read is below the bound, so it has a count
    cases huntagged with
    | integer lower upper =>
      have hn : (UInt64.ofNat n).toNat = n := UInt64.toNat_ofNat_of_lt' (by omega)
      rw [← hn, ← asCount?_eq_some, hnone] at hv
      cases hv
  · intro hnone
    cases hn : v.asCount? with
    | none => rfl
    | some n => exact absurd (asCount?_eq_some.mp hn) (hnone n.toNat)

theorem get?_eq_none : v.get? s = none ↔ ∀ w, ¬v.HasKey s w := by
  unfold get? HasKey
  cases v.untagged with
  | mapping entries =>
    simp only [List.findSome?_eq_none_iff]
    constructor
    · rintro h w ⟨_, hv, hw⟩
      cases hv
      have hnone := h _ hw
      simp only [if_true, reduceCtorEq] at hnone
    · intro h e he
      split
      · rename_i key value
        split_ifs with hkey
        · rw [hkey] at he
          exact absurd ⟨_, rfl, he⟩ (h value)
        · rfl
      · rfl
  | _ => simp

theorem HasKey.of_get? (h : v.get? s = some w) : v.HasKey s w := by
  unfold get? at h
  split at h
  · rename_i entries hv
    rcases List.exists_of_findSome?_eq_some h with ⟨e, he, hw⟩
    split at hw
    · split_ifs at hw with hkey
      rw [← Option.some.inj hw, ← hkey]
      exact ⟨entries, hv, he⟩
    · cases hw
  · cases h

/-- A mapping has one entry at most for a key. -/
theorem WellFormed.hasKey_unique (h : v.WellFormed) (hw : v.HasKey s w) (hx : v.HasKey s x) :
    w = x := by
  rcases hw with ⟨entries, hv, hw⟩
  rcases hx with ⟨entries', hv', hx⟩
  rw [hv] at hv'
  cases hv'
  have huntagged := h.untagged
  rw [hv] at huntagged
  cases huntagged with
  | mapping _ _ differ =>
    have hsymm : Std.Symm fun e e' : Value × Value =>
        e.1 = .text s → e'.1 = .text s → e = e' :=
      ⟨fun _ _ heq he he' => (heq he' he).symm⟩
    -- keys of two entries differ, so one of them at most is this name
    have hone : entries.Pairwise fun e e' => e.1 = .text s → e'.1 = .text s → e = e' := by
      refine differ.imp fun hsame he he' => ?_
      rw [he, he', same, decide_eq_false_iff_not] at hsame
      exact absurd rfl hsame
    have heq := List.Pairwise.forall_of_forall (fun _ _ _ _ => rfl) hone hw hx rfl rfl
    exact congrArg Prod.snd heq

theorem WellFormed.get?_eq_some (h : v.WellFormed) : v.get? s = some w ↔ v.HasKey s w := by
  refine ⟨HasKey.of_get?, fun hw => ?_⟩
  cases hx : v.get? s with
  | none => exact absurd hw (get?_eq_none.mp hx w)
  | some x => rw [h.hasKey_unique (.of_get? hx) hw]

/-! ## Entries by what they mean -/

theorem mapM_eq_some {f : α → Option β} {l : List α} {bs : List β} :
    l.mapM f = some bs ↔ l.map f = bs.map some := by
  induction l generalizing bs with
  | nil => cases bs <;> simp
  | cons a l ih =>
    rw [List.mapM_cons, List.map_cons]
    constructor
    · intro h
      rcases Option.bind_eq_some_iff.mp h with ⟨b, hb, h⟩
      rcases Option.bind_eq_some_iff.mp h with ⟨bs, hbs, h⟩
      cases h
      rw [hb, ih.mp hbs, List.map_cons]
    · intro h
      cases bs with
      | nil => cases h
      | cons b bs =>
        rw [List.map_cons, List.cons.injEq] at h
        rw [h.1, ih.mpr h.2]
        rfl

theorem mapM_eq_none {f : α → Option β} {l : List α} :
    l.mapM f = none ↔ ∃ a ∈ l, f a = none := by
  induction l with
  | nil => simp
  | cons a l ih =>
    rw [List.mapM_cons]
    cases hf : f a with
    | none => simp [hf]
    | some b => cases hl : l.mapM f <;> simp_all

section Meaning

variable {ι : Type} {name : ι → String} {meaning : String → Option ι} {i : ι}
  {fields : List (ι × Value)}

def meant (meaning : String → Option ι) (e : Value × Value) : Option (ι × Value) := do
  return (← meaning (← e.1.asText?), e.2)

theorem meant_eq_some (hmeaning : ∀ s i, meaning s = some i ↔ name i = s) {e : Value × Value} :
    meant meaning e = some (i, x) ↔ e.1.Spells (name i) ∧ e.2 = x := by
  simp only [meant, Option.bind_eq_bind, Option.bind_eq_some_iff, asText?_eq_some, hmeaning,
    Option.pure_def, Option.some.injEq, Prod.mk.injEq]
  constructor
  · rintro ⟨s, hs, i', rfl, rfl, rfl⟩
    exact ⟨hs, rfl⟩
  · rintro ⟨hs, rfl⟩
    exact ⟨_, hs, i, rfl, rfl, rfl⟩

theorem meant_eq_none (hmeaning : ∀ s i, meaning s = some i ↔ name i = s) {e : Value × Value} :
    meant meaning e = none ↔ ∀ i, ¬e.1.Spells (name i) := by
  rw [Option.eq_none_iff_forall_ne_some]
  constructor
  · intro h i hspells
    exact h (i, e.2) ((meant_eq_some hmeaning).mpr ⟨hspells, rfl⟩)
  · rintro h ⟨i, x⟩ hmeant
    exact h i ((meant_eq_some hmeaning).mp hmeant).1

/-- Where two meanings are equal, two entries spell the same name. -/
theorem exists_repeated (hmeaning : ∀ s i, meaning s = some i ↔ name i = s)
    (hmap : entries.map (meant meaning) = fields.map some)
    (h : ¬(fields.map Prod.fst).Nodup) : ∃ i, ∃ e e' : Value × Value, [e, e'].Sublist entries ∧
      e.1.Spells (name i) ∧ e'.1.Spells (name i) := by
  simp only [List.nodup_iff_sublist, not_forall, not_not] at h
  rcases h with ⟨i, hi⟩
  rcases List.sublist_map_iff.mp hi with ⟨fs, hfs, hfst⟩
  have hsome := hfs.map some
  rw [← hmap] at hsome
  rcases List.sublist_map_iff.mp hsome with ⟨es, hes, hmeant⟩
  -- the two fields and their entries one by one
  rcases List.map_eq_cons_iff.mp hfst.symm with ⟨f, fs, rfl, hf, hfst⟩
  rcases List.map_eq_cons_iff.mp hfst with ⟨f', fs, rfl, hf', hfst⟩
  rw [List.map_eq_nil_iff.mp hfst] at hmeant
  rcases List.map_eq_cons_iff.mp hmeant.symm with ⟨e, es, rfl, he, hmeant⟩
  rcases List.map_eq_cons_iff.mp hmeant with ⟨e', es, rfl, he', hmeant⟩
  rw [List.map_eq_nil_iff.mp hmeant] at hes
  refine ⟨i, e, e', hes, ?_, ?_⟩
  · rw [← hf]
    exact ((meant_eq_some hmeaning).mp he).1
  · rw [← hf']
    exact ((meant_eq_some hmeaning).mp he').1

/-- Where two entries spell the same name, two meanings are equal. -/
theorem not_nodup_of_repeated (hmeaning : ∀ s i, meaning s = some i ↔ name i = s)
    {e e' : Value × Value} (hmap : entries.map (meant meaning) = fields.map some)
    (hee : [e, e'].Sublist entries) (he : e.1.Spells (name i)) (he' : e'.1.Spells (name i)) :
    ¬(fields.map Prod.fst).Nodup := by
  have hmeant := hee.map (meant meaning)
  have hpair : [e, e'].map (meant meaning) = [(i, e.2), (i, e'.2)].map some := by
    rw [List.map_cons, List.map_singleton, (meant_eq_some hmeaning).mpr ⟨he, rfl⟩,
      (meant_eq_some hmeaning).mpr ⟨he', rfl⟩]
    rfl
  rw [hmap, hpair] at hmeant
  rcases List.sublist_map_iff.mp hmeant with ⟨fs, hfs, heq⟩
  rw [← List.map_injective_iff.mpr (Option.some_injective _) heq] at hfs
  exact fun hnodup => List.nodup_iff_sublist.mp hnodup i (hfs.map Prod.fst)

variable [DecidableEq ι]

theorem fields?_null (hv : v.untagged = .null) : v.fields? meaning = some [] := by
  rw [fields?, hv]

theorem fields?_shape (hnull : v.untagged ≠ .null)
    (hmapping : ∀ entries, v.untagged ≠ .mapping entries) : v.fields? meaning = none := by
  rw [fields?]
  split
  · exact absurd ‹_› hnull
  · exact absurd ‹_› (hmapping _)
  · rfl

theorem fields?_mapping (hv : v.untagged = .mapping entries) :
    v.fields? meaning = (entries.mapM (meant meaning)).bind fun fields =>
      if (fields.map Prod.fst).Nodup then some fields else none := by
  rw [fields?, hv]
  rfl

theorem of_fields?_eq_some (h : v.fields? meaning = some fields) :
    v.untagged = .null ∧ fields = [] ∨ ∃ entries, v.untagged = .mapping entries ∧
      entries.map (meant meaning) = fields.map some ∧ (fields.map Prod.fst).Nodup := by
  by_cases hnull : v.untagged = .null
  · rw [fields?_null hnull] at h
    exact .inl ⟨hnull, (Option.some.inj h).symm⟩
  · by_cases hmapping : ∃ entries, v.untagged = .mapping entries
    · rcases hmapping with ⟨entries, hv⟩
      rw [fields?_mapping hv] at h
      -- every entry means something, and no two the same
      rcases Option.bind_eq_some_iff.mp h with ⟨all, hall, h⟩
      split_ifs at h with hnodup
      cases h
      exact .inr ⟨entries, hv, mapM_eq_some.mp hall, hnodup⟩
    · rw [fields?_shape hnull fun entries hv => hmapping ⟨entries, hv⟩] at h
      cases h

theorem nodup_fields? (h : v.fields? meaning = some fields) : (fields.map Prod.fst).Nodup := by
  rcases of_fields?_eq_some h with ⟨_, rfl⟩ | ⟨_, _, _, hnodup⟩
  · exact List.nodup_nil
  · exact hnodup

variable (hmeaning : ∀ s i, meaning s = some i ↔ name i = s)
include hmeaning

/-- What is found are the entries by what they mean. -/
theorem mem_fields? (h : v.fields? meaning = some fields) :
    (i, x) ∈ fields ↔ v.Gives (name i) x := by
  rcases of_fields?_eq_some h with ⟨hv, rfl⟩ | ⟨entries, hv, hmap, _⟩
  · refine ⟨fun hmem => absurd hmem List.not_mem_nil, ?_⟩
    rintro ⟨entries, hentries, _⟩
    rw [hv] at hentries
    cases hentries
  · -- what is found is the list of entries, each by what it means
    have hsome : (i, x) ∈ fields ↔ some (i, x) ∈ entries.map (meant meaning) := by
      rw [hmap]
      exact (List.mem_map_of_injective (Option.some_injective _)).symm
    rw [hsome, List.mem_map]
    constructor
    · rintro ⟨e, he, hmeant⟩
      rcases (meant_eq_some hmeaning).mp hmeant with ⟨hspells, rfl⟩
      exact ⟨entries, hv, e.1, he, hspells⟩
    · rintro ⟨entries', hv', key, he, hspells⟩
      rw [hv] at hv'
      cases hv'
      exact ⟨_, he, (meant_eq_some hmeaning).mpr ⟨hspells, rfl⟩⟩

theorem lookup_fields? (h : v.fields? meaning = some fields) :
    fields.lookup i = some x ↔ v.Gives (name i) x := by
  rw [← mem_fields? hmeaning h]
  have hmem : ∀ {y}, fields.lookup i = some y → (i, y) ∈ fields := by
    intro y hy
    rcases List.lookup_eq_some_iff.mp hy with ⟨before, after, rfl, _⟩
    exact List.mem_append_right before List.mem_cons_self
  refine ⟨hmem, fun hx => ?_⟩
  cases hy : fields.lookup i with
  | none => simpa using List.lookup_eq_none_iff.mp hy (i, x) hx
  | some y =>
    have heq := List.inj_on_of_nodup_map (nodup_fields? h) (hmem hy) hx rfl
    rw [(Prod.mk.inj heq).2]

theorem WellFormed.misnamed_of_mapping (hwf : v.WellFormed) (hv : v.untagged = .mapping entries)
    (h : v.fields? meaning = none) : Misnamed name v := by
  rw [fields?_mapping hv] at h
  cases hfields : entries.mapM (meant meaning) with
  | none =>
    -- an entry that means nothing
    rcases mapM_eq_none.mp hfields with ⟨e, he, hnone⟩
    exact .unknown hv he ((meant_eq_none hmeaning).mp hnone)
  | some fields =>
    rw [hfields, Option.bind_some] at h
    split_ifs at h with hnodup
    -- or two that mean the same
    rcases exists_repeated hmeaning (mapM_eq_some.mp hfields) hnodup with ⟨i, e, e', hee, he, he'⟩
    have huntagged := hwf.untagged
    rw [hv] at huntagged
    exact .repeated hv hee he he' (huntagged.tagged_of_spells hee he he')

theorem Misnamed.fields?_eq_none (h : Misnamed name v) : v.fields? meaning = none := by
  cases h with
  | shape hnull hmapping => exact fields?_shape hnull hmapping
  | unknown hv he hspells =>
    have hnone := mapM_eq_none.mpr ⟨_, he, (meant_eq_none hmeaning).mpr hspells⟩
    rw [fields?_mapping hv, hnone]
    rfl
  | repeated hv hee he he' _ =>
    rw [fields?_mapping hv, Option.bind_eq_none_iff]
    intro fields hfields
    exact if_neg (not_nodup_of_repeated hmeaning (mapM_eq_some.mp hfields) hee he he')

/-- Nothing is found if and only if the entries do not go by the names. -/
theorem WellFormed.fields?_eq_none (hwf : v.WellFormed) :
    v.fields? meaning = none ↔ Misnamed name v := by
  refine ⟨fun h => ?_, Misnamed.fields?_eq_none hmeaning⟩
  by_cases hnull : v.untagged = .null
  · rw [fields?_null hnull] at h
    cases h
  · by_cases hmapping : ∃ entries, v.untagged = .mapping entries
    · rcases hmapping with ⟨entries, hv⟩
      exact hwf.misnamed_of_mapping hmeaning hv h
    · exact .shape hnull fun entries hv => hmapping ⟨entries, hv⟩

end Meaning

end UnitGraph.Yaml.Value
