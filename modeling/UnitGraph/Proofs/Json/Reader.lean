import UnitGraph.Proofs.Json.Document

/-!
# Values read back

Readers of lists, records and variants undo writing as soon as the readers of their parts do.
-/

namespace UnitGraph.Json

variable {α σ : Type}

/-! ## Lists and optional values -/

theorem Draft.asOption_ofOption {read : Reader α} {write : α → Document}
    (h : ∀ a, read (write a).draft = .ok a) (hnull : ∀ a, (write a).draft ≠ .null) (o : Option α) :
    Draft.asOption read (Document.ofOption write o).draft = .ok o := by
  cases o with
  | none => rfl
  | some a =>
    show Draft.asOption read (write a).draft = .ok (some a)
    unfold Draft.asOption
    split
    · rename_i heq
      exact absurd heq (hnull a)
    · rw [h a]
      rfl

theorem Draft.asList_array {read : Reader α} {write : α → Document}
    (h : ∀ a, read (write a).draft = .ok a) (as : List α) :
    Draft.asList read (Document.array (as.map write)).draft = .ok as := by
  show Draft.readItems read (Document.draftItems (as.map write)) = .ok as
  induction as with
  | nil => rfl
  | cons a as ih =>
    rw [List.map_cons, Document.draftItems, Draft.readItems, h a, ih]
    rfl

/-! ## Records -/

namespace Record

variable {r : Record σ} {so start : σ} {seen : List String} {ms : List (String × Document)}

def names (r : Record σ) : List String :=
  r.fields.map (·.headD "")

def Unambiguous (r : Record σ) : Prop :=
  r.names.Nodup ∧ ∀ name ∈ r.names, r.field? name = some name

instance (r : Record σ) : Decidable r.Unambiguous :=
  inferInstanceAs (Decidable (_ ∧ _))

theorem readMembers_draft (hnodup : (ms.map Prod.fst).Nodup)
    (hfield : ∀ name ∈ ms.map Prod.fst, r.field? name = some name ∧ name ∉ seen) :
    r.readMembers seen so (Document.draftMembers ms) =
      ms.foldlM (fun so (name, d) => r.put so name d.draft) so := by
  -- the names seen so far are general: they grow with each member
  induction ms generalizing seen so with
  | nil => rfl
  | cons m ms ih =>
    obtain ⟨name, d⟩ := m
    rw [List.map_cons, List.nodup_cons] at hnodup
    obtain ⟨hname, hseen⟩ := hfield name List.mem_cons_self
    rw [Document.draftMembers, readMembers, List.foldlM_cons]
    simp only [bind, Except.bind, hname]
    rw [if_neg (by simpa using hseen)]
    cases r.put so name d.draft with
    | error e => rfl
    | ok so' =>
      -- the name just seen is not among those to come
      refine ih hnodup.2 fun other hother => ?_
      obtain ⟨hfield', hseen'⟩ := hfield other (List.mem_cons_of_mem _ hother)
      refine ⟨hfield', fun hmem => ?_⟩
      obtain rfl | hmem := List.mem_cons.mp hmem
      · exact hnodup.1 hother
      · exact hseen' hmem

/-- All fields, written in their order, are put one after the other. -/
theorem read_object (hr : r.Unambiguous) (hms : ms.map Prod.fst = r.names) :
    r.read start (Document.object ms).draft =
      ms.foldlM (fun so (name, d) => r.put so name d.draft) start := by
  show r.readMembers [] start (Document.draftMembers ms) = _
  refine readMembers_draft (hms ▸ hr.1) fun name hname => ⟨hr.2 name (hms ▸ hname), ?_⟩
  exact List.not_mem_nil

end Record

/-! ## Variants -/

namespace Draft

variable {variant? : String → Option (Variant α)} {name : String} {a : α}

theorem asVariant_text (h : variant? name = some (.plain a)) :
    asVariant variant? (Document.text name).draft = .ok a := by
  show asVariant variant? (.text (.ok name) none) = .ok a
  rw [asVariant]
  simp only [bind, Except.bind, h]
  rfl

theorem asVariant_object {read : Reader α} {d : Document} (h : variant? name = some (.holding read))
    (hread : read d.draft = .ok a) :
    asVariant variant? (Document.object [(name, d)]).draft = .ok a := by
  show asVariant variant? (.object (.cons (.ok name) d.draft (.stop .closed))) = .ok a
  rw [asVariant]
  simp only [bind, Except.bind, h, Variant.content, hread, afterContent]

end Draft

end UnitGraph.Json
