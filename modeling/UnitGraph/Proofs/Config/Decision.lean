import UnitGraph.Proofs.Config.RoundTrip
import UnitGraph.Proofs.Yaml.Value

/-!
# How a configuration text is decided

A text is looked at in a fixed order: its form, its version, what the parts and settings are called
and hold, and at last the settings themselves.  The first of these that is wrong decides, whatever
else is wrong as well, and a text with nothing wrong gives the settings it says.
-/

namespace UnitGraph.Config

open Yaml (Value Value.Misnamed)

variable {c c' : Config} {f : Field} {file d x y : Value} {fields : List (Field × Value)}

/-! ## What a file says -/

/-- The value has the type of the setting, which then holds the second value: a text, or a number,
which may be written as an integer. -/
inductive Field.Takes : Field → Value → Value → Prop
  | float {x : Value} {t : Float} (h : x.untagged = .float t) : Takes .threshold x (.float t)
  | integer {x : Value} {n : Int} (h : x.untagged = .integer n) :
      Takes .threshold x (.float (Float.ofInt n))
  | text {f : Field} {x : Value} {s : String} (hf : f ≠ .threshold) (h : x.untagged = .text s) :
      Takes f x (.text s)

def Given (file : Value) (f : Field) (x : Value) : Prop :=
  ∃ d, file.Gives Section.detection.name d ∧ d.Gives f.name x

/-- The settings hold what the file gives, and their defaults for the rest. -/
structure States (file : Value) (c : Config) : Prop where
  given : ∀ f x, Given file f x → f.Takes x (c.value f)
  absent : ∀ f, (∀ x, ¬Given file f x) → c.value f = ({} : Config).value f

/-- What is wrong with a file of the current version before its settings are checked: the parts of
the file, the settings in the part about detection, or the type of a setting. -/
inductive Misfit (file : Value) : Prop
  | parts (h : Value.Misnamed Section.name file)
  | settings {d : Value} (hd : file.Gives Section.detection.name d)
      (h : Value.Misnamed Field.name d)
  | type {f : Field} {x : Value} (hx : Given file f x) (h : ∀ y, ¬f.Takes x y)

/-- The answer to a text that is read as a value, or as nothing. -/
inductive Decision : Option Value → Except Error Config → Prop
  | malformed : Decision none (.error .malformed)
  | missingVersion {file : Value} (h : ∀ w, ¬file.HasKey Section.version.name w) :
      Decision (some file) (.error .missingVersion)
  | versionNoInteger {file w : Value} (hw : file.HasKey Section.version.name w)
      (h : ∀ n : Nat, w.untagged ≠ .integer n) : Decision (some file) (.error .versionNoInteger)
  | unsupportedVersion {file w : Value} {n : Count} (hw : file.HasKey Section.version.name w)
      (hn : w.untagged = .integer n.toNat) (h : n ≠ currentVersion) :
      Decision (some file) (.error (.unsupportedVersion n))
  | misfit {file w : Value} (hw : file.HasKey Section.version.name w)
      (hn : w.untagged = .integer currentVersion.toNat) (h : Misfit file) :
      Decision (some file) (.error .malformed)
  | fault {file w : Value} {c : Config} {e : Error} (hw : file.HasKey Section.version.name w)
      (hn : w.untagged = .integer currentVersion.toNat) (hfit : ¬Misfit file) (hc : States file c)
      (h : c.Fault e) : Decision (some file) (.error e)
  | loaded {file w : Value} {c : Config} (hw : file.HasKey Section.version.name w)
      (hn : w.untagged = .integer currentVersion.toNat) (hfit : ¬Misfit file) (hc : States file c)
      (h : c.Faultless) : Decision (some file) (.ok c)

/-! ## Names -/

theorem Section.ofName?_eq_some (s : String) (i : Section) :
    Section.ofName? s = some i ↔ i.name = s := by
  unfold Section.ofName?
  constructor
  · intro h
    simpa using List.find?_some h
  · rintro rfl
    cases i <;> decide

theorem Field.ofName?_eq_some (s : String) (f : Field) :
    Field.ofName? s = some f ↔ f.name = s := by
  unfold Field.ofName?
  constructor
  · intro h
    simpa using List.find?_some h
  · rintro rfl
    cases f <;> decide

/-! ## Settings as values -/

theorem Field.Takes.unique {y' : Value} (h : f.Takes x y) (h' : f.Takes x y') : y = y' := by
  -- a number is the payload of one constructor only, so the two readings cannot differ in kind
  cases h with
  | float h =>
    cases h' with
    | float h' => cases h.symm.trans h'; rfl
    | integer h' => cases h.symm.trans h'
    | text hf _ => exact absurd rfl hf
  | integer h =>
    cases h' with
    | float h' => cases h.symm.trans h'
    | integer h' => cases h.symm.trans h'; rfl
    | text hf _ => exact absurd rfl hf
  | text hf h =>
    cases h' with
    | float _ => exact absurd rfl hf
    | integer _ => exact absurd rfl hf
    | text _ h' => cases h.symm.trans h'; rfl

theorem eq_of_value (h : ∀ f, c.value f = c'.value f) : c = c' := by
  have ht := h .threshold
  have hi := h .incrementMarker
  have hc := h .conditionMarker
  have hm := h .mainFunction
  simp only [value, Value.float.injEq, Value.text.injEq] at ht hi hc hm
  cases c
  cases c'
  congr

theorem States.unique (h : States file c) (h' : States file c') : c = c' := by
  refine eq_of_value fun f => ?_
  by_cases hx : ∃ x, Given file f x
  · rcases hx with ⟨x, hx⟩
    exact (h.given f x hx).unique (h'.given f x hx)
  · have hnot := not_exists.mp hx
    exact (h.absent f hnot).trans (h'.absent f hnot).symm

/-! ## Settings one by one -/

theorem takes_threshold {t : Float} (h : x.asFloat? = some t) :
    Field.Takes .threshold x (.float t) := by
  rw [Value.asFloat?] at h
  split at h
  · rw [← Option.some.inj h]
    exact .integer ‹_›
  · rw [← Option.some.inj h]
    exact .float ‹_›
  · cases h

theorem not_takes_threshold (h : x.asFloat? = none) (y : Value) :
    ¬Field.Takes .threshold x y := by
  intro hy
  cases hy with
  | float hx => simp [Value.asFloat?, hx] at h
  | integer hx => simp [Value.asFloat?, hx] at h
  | text hf _ => exact hf rfl

theorem not_takes_text (hf : f ≠ .threshold) (h : x.asText? = none) (y : Value) :
    ¬f.Takes x y := by
  intro hy
  cases hy with
  | float _ => exact hf rfl
  | integer _ => exact hf rfl
  | text _ hx =>
    rw [Value.asText?_eq_some.mpr hx] at h
    cases h

inductive Change (c : Config) (f : Field) (x : Value) : Option Config → Prop
  | refused (h : ∀ y, ¬f.Takes x y) : Change c f x none
  | made {c' : Config} (hf : f.Takes x (c'.value f)) (h : ∀ g ≠ f, c'.value g = c.value g) :
      Change c f x (some c')

theorem change_asText? (hf : f ≠ .threshold) (put : String → Config)
    (hput : ∀ s, (put s).value f = .text s) (hkeep : ∀ s, ∀ g ≠ f, (put s).value g = c.value g) :
    Change c f x (x.asText?.bind fun s => some (put s)) := by
  cases hx : x.asText? with
  | none => exact .refused (not_takes_text hf hx)
  | some s =>
    refine .made ?_ (hkeep s)
    rw [hput]
    exact .text hf (Value.asText?_eq_some.mp hx)

theorem change_set? (c : Config) (f : Field) (x : Value) : Change c f x (c.set? (f, x)) := by
  cases f with
  | threshold =>
    -- the threshold alone takes two kinds of number
    change Change c _ x (x.asFloat?.bind fun t => some { c with threshold := t })
    cases hx : x.asFloat? with
    | none => exact .refused (not_takes_threshold hx)
    | some t =>
      refine .made (takes_threshold hx) fun g hg => ?_
      cases g <;> first | rfl | exact absurd rfl hg
  | incrementMarker =>
    refine change_asText? Field.noConfusion (fun s => { c with incrementMarker := s })
      (fun _ => rfl)
      fun s g hg => ?_
    cases g <;> first | rfl | exact absurd rfl hg
  | conditionMarker =>
    refine change_asText? Field.noConfusion (fun s => { c with conditionMarker := s })
      (fun _ => rfl)
      fun s g hg => ?_
    cases g <;> first | rfl | exact absurd rfl hg
  | mainFunction =>
    refine change_asText? Field.noConfusion (fun s => { c with mainFunction := s }) (fun _ => rfl)
      fun s g hg => ?_
    cases g <;> first | rfl | exact absurd rfl hg

theorem foldlM_set?_eq_none :
    fields.foldlM set? c = none ↔ ∃ f x, (f, x) ∈ fields ∧ ∀ y, ¬f.Takes x y := by
  -- the settings are general: no field minds what the others have been set to
  induction fields generalizing c with
  | nil => simp
  | cons e fields ih =>
    rcases e with ⟨f, x⟩
    rw [List.foldlM_cons]
    have hchange := change_set? c f x
    cases hset : c.set? (f, x) with
    | none =>
      rw [hset] at hchange
      cases hchange with
      | refused h => exact iff_of_true rfl ⟨f, x, List.mem_cons_self, h⟩
    | some c' =>
      rw [hset] at hchange
      cases hchange with
      | made hf _ =>
        change fields.foldlM set? c' = none ↔ _
        rw [ih]
        constructor
        · rintro ⟨g, y, hmem, h⟩
          exact ⟨g, y, List.mem_cons_of_mem _ hmem, h⟩
        · rintro ⟨g, y, hmem, h⟩
          rcases List.mem_cons.mp hmem with heq | hmem
          · cases heq
            exact absurd hf (h _)
          · exact ⟨g, y, hmem, h⟩

/-- Where no setting is changed twice, every one that is changed has its value at the end. -/
theorem foldlM_set?_eq_some (hnodup : (fields.map Prod.fst).Nodup)
    (h : fields.foldlM set? c = some c') :
    (∀ f x, (f, x) ∈ fields → f.Takes x (c'.value f)) ∧
      ∀ f, (∀ x, (f, x) ∉ fields) → c'.value f = c.value f := by
  induction fields generalizing c with
  | nil =>
    cases h
    exact ⟨fun f x hmem => absurd hmem List.not_mem_nil, fun f _ => rfl⟩
  | cons e fields ih =>
    rcases e with ⟨f, x⟩
    rw [List.foldlM_cons] at h
    rcases Option.bind_eq_some_iff.mp h with ⟨c₁, hset, hrest⟩
    rw [List.map_cons, List.nodup_cons] at hnodup
    rcases ih hnodup.2 hrest with ⟨hgiven, habsent⟩
    have hchange := change_set? c f x
    rw [hset] at hchange
    cases hchange with
    | made hf hkeep =>
      -- no later entry is for this field, so what was set stays
      have hnot : ∀ y, (f, y) ∉ fields := fun y hy =>
        hnodup.1 (List.mem_map.mpr ⟨(f, y), hy, rfl⟩)
      constructor
      · intro g y hmem
        rcases List.mem_cons.mp hmem with heq | hmem
        · cases heq
          rw [habsent f hnot]
          exact hf
        · exact hgiven g y hmem
      · intro g hg
        have hne : g ≠ f := by
          rintro rfl
          exact hg x List.mem_cons_self
        rw [habsent g fun y hy => hg y (List.mem_cons_of_mem _ hy), hkeep g hne]

/-! ## The parts of a file -/

inductive Reading (file : Value) : Option Config → Prop
  | misfit (h : Misfit file) : Reading file none
  | fits {c : Config} (hfit : ¬Misfit file) (hc : States file c) : Reading file (some c)

/-- Without a part about detection all settings are the defaults. -/
theorem reading_default (hparts : ¬Value.Misnamed Section.name file)
    (h : ∀ d, ¬file.Gives Section.detection.name d) : Reading file (some {}) := by
  have hnot : ∀ f x, ¬Given file f x := fun f x ⟨d, hd, _⟩ => h d hd
  refine .fits (fun hmisfit => ?_) ⟨fun f x hx => absurd hx (hnot f x), fun f _ => rfl⟩
  cases hmisfit with
  | parts hmisnamed => exact hparts hmisnamed
  | settings hd _ => exact h _ hd
  | type hx _ => exact hnot _ _ hx

/-- With one, the settings are those that it gives. -/
theorem reading_ofValue? (hwf : file.WellFormed) (hparts : ¬Value.Misnamed Section.name file)
    (hd : file.Gives Section.detection.name d)
    (hunique : ∀ d', file.Gives Section.detection.name d' → d' = d) :
    Reading file (ofValue? d) := by
  -- a value of its own may read as nothing for two reasons: its names, or the type of one of them
  have hnames := (hwf.of_gives hd).fields?_eq_none Field.ofName?_eq_some
  unfold ofValue?
  cases hfields : d.fields? Field.ofName? with
  | none => exact .misfit (.settings hd (hnames.mp hfields))
  | some fields =>
    have hgiven : ∀ {f x}, Given file f x ↔ (f, x) ∈ fields := by
      intro f x
      rw [Value.mem_fields? Field.ofName?_eq_some hfields]
      refine ⟨fun hx => ?_, fun hx => ⟨d, hd, hx⟩⟩
      rcases hx with ⟨d', hd', hx⟩
      rwa [← hunique d' hd']
    change Reading file (fields.foldlM set? {})
    cases hset : fields.foldlM set? {} with
    | none =>
      rcases foldlM_set?_eq_none.mp hset with ⟨f, x, hmem, htype⟩
      exact .misfit (.type (hgiven.mpr hmem) htype)
    | some c =>
      rcases foldlM_set?_eq_some (Value.nodup_fields? hfields) hset with ⟨htakes, habsent⟩
      -- none of the misfits is left once every field has taken its value
      refine .fits (fun hmisfit => ?_) ⟨fun f x hx => htakes f x (hgiven.mp hx),
        fun f hx => habsent f fun x hmem => hx x (hgiven.mpr hmem)⟩
      cases hmisfit with
      | parts hmisnamed => exact hparts hmisnamed
      | settings hd' hmisnamed =>
        rw [hunique _ hd', ← hnames, hfields] at hmisnamed
        cases hmisnamed
      | type hx htype => exact htype _ (htakes _ _ (hgiven.mp hx))

theorem reading_ofFile? (hwf : file.WellFormed) : Reading file (ofFile? file) := by
  have hnames := hwf.fields?_eq_none Section.ofName?_eq_some
  unfold ofFile?
  cases hparts : file.fields? Section.ofName? with
  | none => exact .misfit (.parts (hnames.mp hparts))
  | some parts =>
    have hnamed : ¬Value.Misnamed Section.name file := by
      rw [← hnames, hparts]
      exact Option.some_ne_none parts
    -- as the names are different, what is looked up first is all there is
    have hlookup : ∀ d, parts.lookup .detection = some d ↔ file.Gives Section.detection.name d :=
      fun d => Value.lookup_fields? Section.ofName?_eq_some hparts
    cases hd : parts.lookup .detection with
    | none =>
      simp only [hd, reduceCtorEq, false_iff] at hlookup
      simp only [Option.bind_eq_bind, Option.bind_some, hd]
      exact reading_default hnamed hlookup
    | some d =>
      simp only [hd, Option.some.injEq] at hlookup
      simp only [Option.bind_eq_bind, Option.bind_some, hd]
      exact reading_ofValue? hwf hnamed ((hlookup d).mp rfl) fun d' hd' =>
        ((hlookup d').mpr hd').symm

/-! ## Loading, step by step -/

section Loading

variable {text : String} {w : Value} {n : Count} {e : Error}

theorem versionOf_missing (h : ∀ w, ¬file.HasKey Section.version.name w) :
    versionOf file = .error .missingVersion := by
  rw [versionOf, Value.get?_eq_none.mpr h]

theorem versionOf_noInteger (hwf : file.WellFormed) (hw : file.HasKey Section.version.name w)
    (h : ∀ n : Nat, w.untagged ≠ .integer n) : versionOf file = .error .versionNoInteger := by
  rw [versionOf, hwf.get?_eq_some.mpr hw]
  simp only [(hwf.of_hasKey hw).asCount?_eq_none.mpr h]

theorem versionOf_count (hwf : file.WellFormed) (hw : file.HasKey Section.version.name w)
    (h : w.untagged = .integer n.toNat) : versionOf file = .ok n := by
  rw [versionOf, hwf.get?_eq_some.mpr hw]
  simp only [Value.asCount?_eq_some.mpr h]

theorem load_malformed (hfile : Value.read? text = none) : load text = .error .malformed := by
  simp only [load, hfile]

theorem load_of_versionOf_error (hfile : Value.read? text = some file)
    (h : versionOf file = .error e) : load text = .error e := by
  simp only [load, hfile, h]
  rfl

theorem load_otherVersion (hfile : Value.read? text = some file) (h : versionOf file = .ok n)
    (hn : n ≠ currentVersion) : load text = .error (.unsupportedVersion n) := by
  simp only [load, hfile, h, bind, Except.bind, if_pos hn]

theorem load_misfit (hfile : Value.read? text = some file)
    (h : versionOf file = .ok currentVersion) (hc : ofFile? file = none) :
    load text = .error .malformed := by
  simp only [load, hfile, h, hc, bind, Except.bind]
  rfl

theorem load_ofFile? (hfile : Value.read? text = some file)
    (h : versionOf file = .ok currentVersion) (hc : ofFile? file = some c) :
    load text = c.validate.map fun _ => c := by
  simp only [load, hfile, h, hc, bind, Except.bind]
  cases c.validate <;> rfl

end Loading

/-! ## The decision -/

theorem Decision.validate {read : Option Value} (h : Decision read (.ok c)) :
    c.validate = .ok () := by
  cases h with
  | loaded _ _ _ _ hc => exact validate_eq_ok_iff.mpr hc

theorem decision_load_of_current {text : String} {w : Value}
    (hfile : Value.read? text = some file) (hwf : file.WellFormed)
    (hw : file.HasKey Section.version.name w)
    (hn : w.untagged = .integer currentVersion.toNat) : Decision (some file) (load text) := by
  have hversion := versionOf_count hwf hw hn
  have hreading := reading_ofFile? hwf
  -- the version is settled; what follows reads the settings and then checks them
  cases hc : ofFile? file with
  | none =>
    rw [hc] at hreading
    rw [load_misfit hfile hversion hc]
    cases hreading with
    | misfit h => exact .misfit hw hn h
  | some c =>
    rw [hc] at hreading
    rw [load_ofFile? hfile hversion hc]
    cases hreading with
    | fits hfit hstates =>
      cases hvalid : c.validate with
      | error e => exact .fault hw hn hfit hstates (validate_eq_error_iff.mp hvalid)
      | ok _ => exact .loaded hw hn hfit hstates (validate_eq_ok_iff.mp hvalid)

/-- What loading answers is a decision. -/
theorem decision_load (text : String) : Decision (Value.read? text) (load text) := by
  cases hfile : Value.read? text with
  | none =>
    rw [load_malformed hfile]
    exact .malformed
  | some file =>
    have hwf := Value.wellFormed_read? hfile
    -- the version is looked at before anything else in the file
    by_cases hkey : ∃ w, file.HasKey Section.version.name w
    · rcases hkey with ⟨w, hw⟩
      cases hcount : w.asCount? with
      | none =>
        have hn := (hwf.of_hasKey hw).asCount?_eq_none.mp hcount
        rw [load_of_versionOf_error hfile (versionOf_noInteger hwf hw hn)]
        exact .versionNoInteger hw hn
      | some n =>
        have hn := Value.asCount?_eq_some.mp hcount
        by_cases hcurrent : n = currentVersion
        · rw [hcurrent] at hn
          exact decision_load_of_current hfile hwf hw hn
        · rw [load_otherVersion hfile (versionOf_count hwf hw hn) hcurrent]
          exact .unsupportedVersion hw hn hcurrent
    · have hnone := not_exists.mp hkey
      rw [load_of_versionOf_error hfile (versionOf_missing hnone)]
      exact .missingVersion hnone

/-- A file that fits gives the settings that it states. -/
theorem ofFile?_of_states (hwf : file.WellFormed) (hfit : ¬Misfit file) (hc : States file c) :
    ofFile? file = some c := by
  have hreading := reading_ofFile? hwf
  cases hfile : ofFile? file with
  | none =>
    rw [hfile] at hreading
    cases hreading with
    | misfit h => exact absurd h hfit
  | some c' =>
    rw [hfile] at hreading
    cases hreading with
    | fits _ hc' => rw [hc'.unique hc]

theorem ofFile?_of_misfit (hwf : file.WellFormed) (h : Misfit file) : ofFile? file = none := by
  have hreading := reading_ofFile? hwf
  cases hfile : ofFile? file with
  | none => rfl
  | some c =>
    rw [hfile] at hreading
    cases hreading with
    | fits hfit _ => exact absurd h hfit

/-- A decision is what loading answers, so there is one for every text. -/
theorem load_of_decision {text : String} {r : Except Error Config}
    (h : Decision (Value.read? text) r) : load text = r := by
  cases hread : Value.read? text with
  | none =>
    rw [hread] at h
    cases h
    exact load_malformed hread
  | some file =>
    rw [hread] at h
    have hwf := Value.wellFormed_read? hread
    -- each decision fixes the path of the reader, so its outcome is computed
    cases h with
    | missingVersion h => exact load_of_versionOf_error hread (versionOf_missing h)
    | versionNoInteger hw h => exact load_of_versionOf_error hread (versionOf_noInteger hwf hw h)
    | unsupportedVersion hw hn h => exact load_otherVersion hread (versionOf_count hwf hw hn) h
    | misfit hw hn h =>
      exact load_misfit hread (versionOf_count hwf hw hn) (ofFile?_of_misfit hwf h)
    | fault hw hn hfit hc h =>
      rw [load_ofFile? hread (versionOf_count hwf hw hn) (ofFile?_of_states hwf hfit hc),
        validate_eq_error_iff.mpr h]
      rfl
    | loaded hw hn hfit hc h =>
      rw [load_ofFile? hread (versionOf_count hwf hw hn) (ofFile?_of_states hwf hfit hc),
        validate_eq_ok_iff.mpr h]
      rfl

/-- Loading a text answers what the order of the checks decides, and nothing else: its form, its
version, the parts and settings with their types, the check of the settings, and with nothing wrong
the settings that the file states.  So settings that are loaded pass the check. -/
theorem load_decides (text : String) :
    (∀ r, load text = r ↔ Decision (Value.read? text) r) ∧
      ∀ c, load text = .ok c → c.validate = .ok () := by
  have hdecision := decision_load text
  refine ⟨fun r => ⟨fun h => ?_, load_of_decision⟩, fun c hc => ?_⟩
  · rw [← h]
    exact hdecision
  · rw [hc] at hdecision
    exact hdecision.validate

end UnitGraph.Config
