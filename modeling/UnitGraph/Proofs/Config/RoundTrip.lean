import UnitGraph.Config.File
import UnitGraph.Proofs.Config.Faults
import UnitGraph.Proofs.Yaml.Document
import UnitGraph.Proofs.Yaml.Float
import UnitGraph.Proofs.Yaml.Scalar.Printer

/-!
# Written settings read back

Whatever the settings are, what is written for them is a document that holds all of them unchanged.
Loading it fails for what is wrong with the settings themselves and for nothing else.
-/

namespace UnitGraph.Config

open Yaml (Value Style Lexer.Entry Lexer.nested Lexer.IsKey Value.Means Value.NamesItself)

variable {c : Config} {f : Field}

/-! ## Entries -/

def text (c : Config) : Field → List Char
  | .threshold => (Yaml.floatLayout.text c.threshold).toList
  | .incrementMarker => c.incrementMarker.toList
  | .conditionMarker => c.conditionMarker.toList
  | .mainFunction => c.mainFunction.toList

def isPlain (c : Config) : Field → Bool
  | .threshold => true
  | f => Style.ofText (c.text f) = .plain

def value (c : Config) : Field → Value
  | .threshold => .float c.threshold
  | .incrementMarker => .text c.incrementMarker
  | .conditionMarker => .text c.conditionMarker
  | .mainFunction => .text c.mainFunction

def entry (c : Config) (f : Field) : Lexer.Entry :=
  ⟨f.name.toList, c.written f, c.isPlain f, c.text f⟩

def versionEntry : Lexer.Entry :=
  ⟨"version".toList, ['1', '\n'], true, ['1']⟩

def entries (c : Config) : List (Lexer.Entry × Value) :=
  Field.all.map fun f => (c.entry f, c.value f)

theorem toYaml_eq (c : Config) : c.toYaml =
    String.ofList (Lexer.nested versionEntry "detection".toList (c.entries.map Prod.fst)) :=
  rfl

/-- A name that is read as a key, and stands for itself. -/
structure IsName (name : List Char) : Prop where
  isKey : Lexer.IsKey name
  namesItself : Value.NamesItself name

theorem isName_of_holds {name : List Char} (hplain : Style.plainHolds name)
    (hhead : name.head?.any Char.isAlpha) (hsize : (name.map Char.utf8Size).sum ≤ 1024)
    (hitself : Value.NamesItself name) : IsName name := by
  cases name with
  | nil => cases hhead
  | cons c name =>
    refine ⟨⟨Style.plain_of_plainHolds hplain, List.cons_ne_nil c name, ?_, hsize⟩, hitself⟩
    rintro b ⟨⟩
    exact hhead

theorem isName_name (f : Field) : IsName f.name.toList := by
  cases f
  all_goals exact isName_of_holds (by decide) (by decide) (by decide) rfl

theorem isName_section (s : Section) : IsName s.name.toList := by
  cases s
  all_goals exact isName_of_holds (by decide) (by decide) (by decide) rfl

/-- What is written for a setting is read as its text. -/
theorem reads_entry (c : Config) (f : Field) : (c.entry f).Reads 3 := by
  have htext : ∀ s : String, ∀ b ∈ Yaml.Printer.text 4 s.toList, Yaml.isAllowed b := fun s =>
    Yaml.Printer.isAllowed_text s.toList
  cases f with
  | threshold =>
    rcases Yaml.Scalar.plain_text c.threshold with ⟨hplain, hne⟩
    refine ⟨(isName_name _).isKey, ?_, Yaml.Lexer.readsAs_plain hplain hne⟩
    exact List.forall_mem_append.mpr
      ⟨fun b hb => Style.isAllowed_of_isPrintable (hplain.printable b hb),
        List.forall_mem_singleton.mpr rfl⟩
  | incrementMarker => exact ⟨(isName_name _).isKey, htext _, Yaml.Lexer.readsAs_text _⟩
  | conditionMarker => exact ⟨(isName_name _).isKey, htext _, Yaml.Lexer.readsAs_text _⟩
  | mainFunction => exact ⟨(isName_name _).isKey, htext _, Yaml.Lexer.readsAs_text _⟩

theorem reads_versionEntry : versionEntry.Reads 1 := by
  have hplain : Style.Plain ['1'] := Style.plain_of_plainHolds (by decide)
  refine ⟨(isName_section .version).isKey, ?_,
    Yaml.Lexer.readsAs_plain hplain (List.cons_ne_nil _ _)⟩
  exact List.forall_mem_cons.mpr ⟨rfl, List.forall_mem_singleton.mpr rfl⟩

/-- A text that is written plainly does not look like anything else. -/
theorem ofUntaggedScalar?_ofText (s : String) :
    Value.ofUntaggedScalar? (Style.ofText s.toList = .plain) s.toList = some (.text s) := by
  unfold Value.ofUntaggedScalar?
  split
  · rename_i hplain
    rw [Style.resolve_of_readsAsText (Style.of_ofText_eq_plain (of_decide_eq_true hplain)).1]
    exact congrArg (some ∘ Value.text) String.ofList_toList
  · rw [String.ofList_toList]

/-- A setting means its value. -/
theorem means_entry (c : Config) (f : Field) : Value.Means (c.entry f) (c.value f) := by
  refine ⟨(isName_name f).namesItself, ?_⟩
  cases f with
  | threshold =>
    change Value.ofScalar? (Yaml.Scalar.resolve (Yaml.floatLayout.text c.threshold).toList) = _
    rw [Yaml.Scalar.resolve_text]
    rfl
  | incrementMarker => exact ofUntaggedScalar?_ofText _
  | conditionMarker => exact ofUntaggedScalar?_ofText _
  | mainFunction => exact ofUntaggedScalar?_ofText _

def document (c : Config) : Value :=
  .mapping [(.text "version", .integer 1), (.text "detection",
    .mapping (Field.all.map fun f => (.text f.name, c.value f)))]

theorem document_eq (c : Config) :
    c.document = Value.nestedValue (versionEntry, .integer 1) "detection".toList c.entries := by
  rfl

/-- What is written is well-formed, and is read as the document. -/
theorem read?_toYaml (c : Config) : Value.read? c.toYaml = some c.document := by
  -- the entries come field by field, so that a law of a field is one of its entry
  have hentries : ∀ {p : Lexer.Entry × Value → Prop}, (∀ f, p (c.entry f, c.value f)) →
      ∀ e ∈ c.entries, p e := by
    intro p hp e he
    rcases List.mem_map.mp he with ⟨f, -, rfl⟩
    exact hp f
  have hversion : Value.Means versionEntry (.integer 1) :=
    ⟨(isName_section .version).namesItself, rfl⟩
  have hreads : ∀ e ∈ c.entries, e.1.Reads 3 ∧ Value.Means e.1 e.2 :=
    hentries fun f => ⟨reads_entry c f, means_entry c f⟩
  have hnames : c.entries.map (·.1.name) = Field.all.map (·.name.toList) := rfl
  have hnodup : (c.entries.map (·.1.name)).Nodup := by
    rw [hnames]
    decide
  rw [toYaml_eq, document_eq]
  -- the nested mapping has a first entry, which opens it
  cases hcons : c.entries with
  | nil => cases hcons
  | cons e es =>
    rw [hcons] at hreads hnodup
    exact Value.read?_nested (versionEntry, .integer 1) reads_versionEntry hversion
      (isName_section .detection).isKey (isName_section .detection).namesItself (by decide)
      hreads hnodup

/-! ## Loading -/

theorem versionOf_document (c : Config) : versionOf c.document = .ok currentVersion := by
  rfl

theorem ofFile?_document (c : Config) : ofFile? c.document = some c := by
  rfl

theorem load_eq_map_validate (c : Config) : load c.toYaml = c.validate.map fun _ => c := by
  unfold load
  simp only [read?_toYaml, versionOf_document, ofFile?_document]
  cases c.validate with
  | ok _ => rfl
  | error e => rfl

theorem get?_document {t : Field × String} (ht : t ∈ c.texts) :
    (c.document.get? "detection").bind (·.get? t.1.name) = some (.text t.2) := by
  simp only [texts, List.mem_cons, List.not_mem_nil, or_false] at ht
  rcases ht with rfl | rfl | rfl
  all_goals rfl

/-- Loading what is written for settings decides like the check of the settings: it gives them back
unless something is wrong with them, and then the error for the first thing that is. The document
itself is well-formed, has the current version, and holds all settings, every text as a text. -/
theorem load_toYaml (c : Config) :
    load c.toYaml = c.validate.map (fun _ => c) ∧
      (load c.toYaml = .ok c ↔ c.Faultless) ∧ (∀ e, load c.toYaml = .error e ↔ c.Fault e) ∧
      ∃ file, Value.read? c.toYaml = some file ∧ versionOf file = .ok currentVersion ∧
        ofFile? file = some c ∧
        ∀ t ∈ c.texts, (file.get? "detection").bind (·.get? t.1.name) = some (.text t.2) := by
  refine ⟨load_eq_map_validate c, ?_, ?_, c.document, read?_toYaml c, versionOf_document c,
    ofFile?_document c, fun t ht => get?_document ht⟩
  · rw [load_eq_map_validate, ← validate_eq_ok_iff]
    cases c.validate with
    | ok _ => exact iff_of_true rfl rfl
    | error e => exact iff_of_false (fun h => nomatch h) (fun h => nomatch h)
  · intro e
    rw [load_eq_map_validate, ← validate_eq_error_iff]
    cases c.validate with
    | ok _ => exact iff_of_false (fun h => nomatch h) (fun h => nomatch h)
    | error e' => simp only [Except.map, Except.error.injEq]

end UnitGraph.Config
