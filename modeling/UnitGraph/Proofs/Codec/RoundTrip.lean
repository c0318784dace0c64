import UnitGraph.Codec.Report
import UnitGraph.Codec.Snapshot
import UnitGraph.Proofs.Json.Reader
import UnitGraph.Proofs.SourceLine

/-!
# Every value of the model is read back

Beside each written form stands its reader.  That the reader undoes the form follows from the parts:
a record is written with every field under its first name, in order, and each part is read back.
-/

namespace UnitGraph

open Json

/-! ## Parts -/

theorem Count.asCount_document (n : Count) : Draft.asCount n.document.draft = .ok n := by
  show Draft.asCount (.number (Number.ofLiteral (.ofNat n.toNat)) none) = .ok n
  rw [Number.ofLiteral_ofNat]
  rfl

theorem SourceLine.asLine_document (x : SourceLine) : Draft.asLine x.document.draft = .ok x := by
  have htext : Draft.asText x.document.draft = .ok x.text := rfl
  simp only [Draft.asLine, htext, bind, Except.bind, parse_text]
  rfl

theorem Verdict.reader_document (v : Verdict) : reader v.document.draft = .ok v := by
  rw [reader, document, Record.read_object (by decide) rfl]
  rfl

theorem DependenceKind.reader_document (k : DependenceKind) : reader k.document.draft = .ok k := by
  refine Draft.asVariant_text ?_
  rw [ofTag?_tag]
  rfl

theorem asOption_bool (o : Option Bool) :
    Draft.asOption Draft.asBool (Document.ofOption .bool o).draft = .ok o :=
  Draft.asOption_ofOption (fun _ => rfl) (fun _ => Draft.noConfusion) o

theorem asOption_text (o : Option String) :
    Draft.asOption Draft.asText (Document.ofOption .text o).draft = .ok o :=
  Draft.asOption_ofOption (fun _ => rfl) (fun _ => Draft.noConfusion) o

theorem asOption_line (o : Option SourceLine) :
    Draft.asOption Draft.asLine (Document.ofOption SourceLine.document o).draft = .ok o :=
  Draft.asOption_ofOption SourceLine.asLine_document (fun _ => Draft.noConfusion) o

/-! ## Nodes and edges -/

theorem Payload.reader_document (p : Payload) : reader p.document.draft = .ok p := by
  cases p with
  | unit instructions block =>
    refine Draft.asVariant_object rfl ?_
    rw [unitReader, Record.read_object (by decide) rfl]
    simp only [List.foldlM_cons, List.foldlM_nil, unitRecord, Count.asCount_document, bind,
      Except.bind]
    rfl
  | loop doAll reduction =>
    refine Draft.asVariant_object rfl ?_
    rw [loopReader, Verdict.reader_document]
    rfl
  | function name =>
    refine Draft.asVariant_object rfl ?_
    rw [functionReader, Record.read_object (by decide) rfl]
    rfl
  | dummy => exact Draft.asVariant_text rfl

theorem Node.reader_document (n : Node) : reader n.document.draft = .ok n := by
  rw [reader, document, Record.read_object (by decide) rfl]
  simp only [List.foldlM_cons, List.foldlM_nil, record, SourceLine.asLine_document,
    Payload.reader_document, asOption_bool, bind, Except.bind]
  rfl

theorem Dependence.reader_document (d : Dependence) : reader d.document.draft = .ok d := by
  rw [reader, document, Record.read_object (by decide) rfl]
  simp only [List.foldlM_cons, List.foldlM_nil, record, SourceLine.asLine_document,
    DependenceKind.reader_document, bind, Except.bind]
  rfl

theorem EdgeLabel.reader_document (l : EdgeLabel) : reader l.document.draft = .ok l := by
  cases l with
  | child => exact Draft.asVariant_text rfl
  | dependence d =>
    refine Draft.asVariant_object rfl ?_
    rw [Dependence.reader_document]
    rfl

/-! ## Snapshots -/

theorem NodeRecord.reader_document (r : NodeRecord) : reader r.document.draft = .ok r := by
  rw [reader, document, Record.read_object (by decide) rfl]
  simp only [List.foldlM_cons, List.foldlM_nil, record, SourceLine.asLine_document,
    Count.asCount_document, asOption_text, bind, Except.bind]
  rfl

theorem EdgeRecord.reader_document (r : EdgeRecord) : reader r.document.draft = .ok r := by
  rw [reader, document, Record.read_object (by decide) rfl]
  simp only [List.foldlM_cons, List.foldlM_nil, record, asOption_text, asOption_line, bind,
    Except.bind]
  rfl

theorem Snapshot.reader_document (s : Snapshot) : reader s.document.draft = .ok s := by
  rw [reader, document, Record.read_object (by decide) rfl]
  simp only [List.foldlM_cons, List.foldlM_nil, record, bind, Except.bind,
    Draft.asList_array NodeRecord.reader_document, Draft.asList_array EdgeRecord.reader_document]
  rfl

/-! ## Profiles -/

namespace Profile

theorem readEntries_draft (entries : List (SourceLine × Count)) :
    Draft.readEntries key Draft.asCount (Document.draftMembers
      (entries.map fun (line, count) => (line.text, count.document))) = .ok entries := by
  induction entries with
  | nil => rfl
  | cons entry entries ih =>
    obtain ⟨line, count⟩ := entry
    have hkey : key line.text = .ok line := by rw [key, SourceLine.parse_text]
    rw [List.map_cons, Document.draftMembers, Draft.readEntries, ih]
    simp only [bind, Except.bind, hkey, Count.asCount_document]
    rfl

theorem counts_foldl (p : Profile) (entries : List (SourceLine × Count)) :
    (entries.foldl (fun p (line, count) => p.insert line count) p).counts =
      p.counts.insertMany entries := by
  induction entries generalizing p with
  | nil => rfl
  | cons entry entries ih => rw [List.foldl_cons, ih, Std.ExtTreeMap.insertMany_cons]; rfl

/-- No line is measured twice, so the order of the measurements does not matter. -/
theorem ofList_of_perm {p : Profile} {entries : List (SourceLine × Count)}
    (h : entries.Perm p.toList) : ofList entries = p := by
  -- no line is listed twice, so it does not matter which entry is put in last
  have hdistinct : entries.Pairwise fun a b => ¬compare a.1 b.1 = .eq := by
    refine h.symm.pairwise Std.ExtTreeMap.distinct_keys_toList fun {a b} hab hba => ?_
    exact hab (Std.OrientedCmp.eq_symm hba)
  have hcounts : (ofList entries).counts = p.counts := by
    rw [ofList, counts_foldl]
    refine Std.ExtTreeMap.ext_getElem? fun line => ?_
    cases hline : p.counts[line]? with
    | some count =>
      have hmem := h.mem_iff.mpr (Std.ExtTreeMap.mem_toList_iff_getElem?_eq_some.mpr hline)
      exact Std.ExtTreeMap.getElem?_insertMany_list_of_mem Std.ReflCmp.compare_self hdistinct hmem
    | none =>
      rw [Std.ExtTreeMap.getElem?_insertMany_list_of_contains_eq_false]
      · rfl
      · rw [List.contains_eq_any_beq, List.any_eq_false]
        intro line' hline' heq
        obtain ⟨⟨_, count⟩, hmem, rfl⟩ := List.mem_map.mp hline'
        have hget := Std.ExtTreeMap.mem_toList_iff_getElem?_eq_some.mp (h.mem_iff.mp hmem)
        cases eq_of_beq heq
        cases hline.symm.trans hget
  cases p
  cases hcounts
  rfl

theorem reader_entriesDocument {p : Profile} {entries : List (SourceLine × Count)}
    (h : entries.Perm p.toList) : reader (entriesDocument entries).draft = .ok p := by
  show (Draft.readEntries key Draft.asCount (Document.draftMembers _)).map ofList = .ok p
  rw [readEntries_draft, Except.map, ofList_of_perm h]

end Profile

/-! ## Texts -/

/-- Every value is what its text without space is read as. -/
def RoundTrips {α : Type} (read : Reader α) (write : α → Document) : Prop :=
  ∀ a, decode read (write a).render = .ok a

theorem roundTrips {α : Type} {read : Reader α} {write : α → Document}
    (h : ∀ a, read (write a).draft = .ok a) : RoundTrips read write :=
  fun a => Document.decode_render (h a)

/-- Each type of the model that has a written form is read back from its text, a profile from its
measurements in any order.  So whatever text a snapshot was read from, the text written for it holds
the same snapshot and loads the same graph or fails alike. -/
theorem model_roundTrips :
    RoundTrips Snapshot.reader Snapshot.document ∧
    RoundTrips NodeRecord.reader NodeRecord.document ∧
    RoundTrips EdgeRecord.reader EdgeRecord.document ∧
    RoundTrips Node.reader Node.document ∧
    RoundTrips Payload.reader Payload.document ∧
    RoundTrips EdgeLabel.reader EdgeLabel.document ∧
    RoundTrips Dependence.reader Dependence.document ∧
    RoundTrips Draft.asLine SourceLine.document ∧
    RoundTrips Verdict.reader Verdict.document ∧
    (∀ (p : Profile) entries, entries.Perm p.toList →
      decode Profile.reader (Profile.entriesDocument entries).render = .ok p) ∧
    ∀ text s, decode Snapshot.reader text = .ok s →
      decode Snapshot.reader s.document.render = .ok s ∧
        Snapshot.load s.document.render = Snapshot.load text := by
  refine ⟨roundTrips Snapshot.reader_document, roundTrips NodeRecord.reader_document,
    roundTrips EdgeRecord.reader_document, roundTrips Node.reader_document,
    roundTrips Payload.reader_document, roundTrips EdgeLabel.reader_document,
    roundTrips Dependence.reader_document, roundTrips SourceLine.asLine_document,
    roundTrips Verdict.reader_document, fun p entries h => ?_, fun text s h => ?_⟩
  · exact Document.decode_render (Profile.reader_entriesDocument h)
  · -- what is written is read as the same snapshot, and a graph is made from it alone
    have hback := Document.decode_render (Snapshot.reader_document s)
    refine ⟨hback, ?_⟩
    rw [Snapshot.load, Snapshot.load, hback, h]

end UnitGraph
