import Mathlib.Data.List.Induction
import UnitGraph.Proofs.Graph.Listing

/-!
# Which snapshots are accepted

Every record is checked against what the records before it have built.  Here the same check is said
in terms of those records alone: when a record offends, and with which error.  A snapshot is refused
by its first offending record, nodes before edges.  That no record offends is in turn a condition on
the snapshot as a whole that knows no order: the child records have different targets and no cycle.
-/

namespace UnitGraph

/-! ## The first failing step of a fold -/

section Fold

variable {α β ε : Type}

/-- No entry offends after those before it. -/
def Clean (offends : List α → α → ε → Prop) (l : List α) : Prop :=
  ∀ before a after, l = before ++ a :: after → ∀ e, ¬offends before a e

def FirstOffence (offends : List α → α → ε → Prop) (l : List α) (e : ε) : Prop :=
  ∃ before a after, l = before ++ a :: after ∧ Clean offends before ∧ offends before a e

variable {offends : List α → α → ε → Prop} {l : List α} {a : α} {e : ε}

theorem eq_append_cons_snoc {before after : List α} {x : α} :
    l ++ [a] = before ++ x :: after ↔ before = l ∧ x = a ∧ after = [] ∨
      ∃ rest, l = before ++ x :: rest ∧ after = rest ++ [a] := by
  constructor
  · intro h
    obtain rfl | ⟨rest, last, rfl⟩ := List.eq_nil_or_concat after
    · obtain ⟨rfl, hx⟩ := List.append_inj' h rfl
      cases hx
      exact .inl ⟨rfl, rfl, rfl⟩
    · rw [List.concat_eq_append] at h ⊢
      rw [← List.cons_append, ← List.append_assoc] at h
      obtain ⟨rfl, hx⟩ := List.append_inj' h rfl
      cases hx
      exact .inr ⟨rest, rfl, rfl⟩
  · rintro (⟨rfl, rfl, rfl⟩ | ⟨rest, rfl, rfl⟩)
    · rfl
    · simp

theorem clean_snoc : Clean offends (l ++ [a]) ↔ Clean offends l ∧ ∀ e, ¬offends l a e := by
  constructor
  · intro h
    refine ⟨fun before x after hl => ?_, h l a [] rfl⟩
    subst hl
    exact h before x (after ++ [a]) (by simp)
  · rintro ⟨hl, ha⟩ before x after heq
    obtain ⟨rfl, rfl, rfl⟩ | ⟨rest, rfl, rfl⟩ := eq_append_cons_snoc.mp heq
    · exact ha
    · exact hl before x rest rfl

theorem firstOffence_snoc : FirstOffence offends (l ++ [a]) e ↔
    FirstOffence offends l e ∨ Clean offends l ∧ offends l a e := by
  constructor
  · rintro ⟨before, x, after, heq, hclean, ho⟩
    obtain ⟨rfl, rfl, rfl⟩ | ⟨rest, rfl, rfl⟩ := eq_append_cons_snoc.mp heq
    · exact .inr ⟨hclean, ho⟩
    · exact .inl ⟨before, x, rest, rfl, hclean, ho⟩
  · rintro (⟨before, x, after, rfl, hclean, ho⟩ | ⟨hclean, ho⟩)
    · exact ⟨before, x, after ++ [a], by simp, hclean, ho⟩
    · exact ⟨l, a, [], rfl, hclean, ho⟩

/-- A fold fails at its first offending entry, and ends if there is none. -/
theorem foldlM_decides {step : β → α → Except ε β} {start : β}
    (hstep : ∀ before b, before.foldlM step start = .ok b →
      ∀ a e, step b a = .error e ↔ offends before a e) (l : List α) :
    ((∃ b, l.foldlM step start = .ok b) ↔ Clean offends l) ∧
      ∀ e, l.foldlM step start = .error e ↔ FirstOffence offends l e := by
  -- from the end: the last entry is reached only if all those before it were accepted
  induction l using List.reverseRecOn with
  | nil =>
    refine ⟨iff_of_true ⟨start, rfl⟩ ?_, fun e => iff_of_false (fun h => by cases h) ?_⟩
    · intro before a after h
      simp at h
    · rintro ⟨before, a, after, h, _⟩
      simp at h
  | append_singleton l a ih =>
    obtain ⟨hok, herror⟩ := ih
    rw [clean_snoc, ← hok]
    simp only [firstOffence_snoc, ← hok, ← herror]
    simp only [List.foldlM_append, List.foldlM_cons, List.foldlM_nil, bind_pure]
    -- an earlier entry has failed already, or the last one decides
    cases h : l.foldlM step start with
    | error e' => simp [bind, Except.bind]
    | ok b =>
      have hlast := hstep l b h a
      simp only [bind, Except.bind, ← hlast]
      cases step b a <;> simp

end Fold

/-! ## Node records -/

inductive NodeRecord.Offends (before : List NodeRecord) (r : NodeRecord) : GraphError → Prop
  | tag (h : r.type ∉ tags) : r.Offends before (.invalidNodeType r.id r.type)
  | duplicate (h : r.type ∈ tags) (hid : r.id ∈ before.map NodeRecord.id) :
    r.Offends before (.duplicateNode r.id)

namespace Snapshot

theorem sound_addNodes {rs : List NodeRecord} {b : Builder}
    (h : rs.foldlM addRecord Builder.empty = .ok b) : b.Sound := by
  obtain ⟨ns, _, hfresh, rfl⟩ := addNodes_ok.mp h
  exact Builder.sound_empty.grows hfresh

theorem describes_addNodes {rs : List NodeRecord} {b : Builder}
    (h : rs.foldlM addRecord Builder.empty = .ok b) : Describes ⟨rs, []⟩ b.graph := by
  refine describes_toGraph (s := ⟨rs, []⟩) ?_
  rw [toGraph, bind_eq_ok]
  exact ⟨b, h, rfl⟩

theorem addRecord_eq_error {rs : List NodeRecord} {b : Builder}
    (h : rs.foldlM addRecord Builder.empty = .ok b) (r : NodeRecord) (e : GraphError) :
    addRecord b r = .error e ↔ r.Offends rs e := by
  -- the identifiers in use are those of the records before
  have hids : ∀ id, id ∈ b.graph.ids ↔ id ∈ rs.map NodeRecord.id := by
    intro id
    rw [(sound_addNodes h).graph.mem_ids_iff, (describes_addNodes h).exists_names]
  rw [addRecord, bind_eq_error, NodeRecord.toNode_eq_error]
  constructor
  · rintro (⟨htag, rfl⟩ | ⟨node, hnode, hadd⟩)
    · exact .tag htag
    · obtain ⟨payload, hsel, rfl⟩ := NodeRecord.toNode_ok.mp hnode
      rw [Builder.addNode_eq] at hadd
      split at hadd <;> rename_i hid
      · cases hadd
        exact .duplicate (NodeRecord.exists_selects.mp ⟨payload, hsel⟩) ((hids r.id).mp hid)
      · cases hadd
  · intro hoff
    cases hoff with
    | tag htag => exact .inl ⟨htag, rfl⟩
    | duplicate htag hid =>
      obtain ⟨payload, hsel⟩ := NodeRecord.exists_selects.mpr htag
      refine .inr ⟨_, NodeRecord.toNode_ok.mpr ⟨payload, hsel, rfl⟩, ?_⟩
      rw [Builder.addNode_eq, if_pos ((hids r.id).mpr hid)]
      rfl

end Snapshot

/-! ## Edge records -/

def DependenceKind.tags : List String := ["RAW", "WAW", "WAR"]

theorem DependenceKind.mem_tags {tag : String} :
    tag ∈ tags ↔ ∃ kind, tag = DependenceKind.tag kind := by
  constructor
  · intro h
    simp only [tags, List.mem_cons, List.not_mem_nil, or_false] at h
    obtain rfl | rfl | rfl := h
    · exact ⟨.raw, rfl⟩
    · exact ⟨.waw, rfl⟩
    · exact ⟨.war, rfl⟩
  · rintro ⟨kind, rfl⟩
    cases kind <;> decide

namespace EdgeRecord

/-- What a dependence record misses first. -/
inductive Lacks (r : EdgeRecord) : EdgeFault → Prop
  | dtype (h : r.dtype = none) : r.Lacks (.missing .kind)
  | tag (tag) (h : r.dtype = some tag) (hnot : tag ∉ DependenceKind.tags) :
    r.Lacks (.unknownDependence tag)
  | var (tag) (h : r.dtype = some tag) (htag : tag ∈ DependenceKind.tags) (hvar : r.var = none) :
    r.Lacks (.missing .var)
  | sourceLine (tag) (h : r.dtype = some tag) (htag : tag ∈ DependenceKind.tags)
    (hvar : r.var.isSome) (hsource : r.sourceLine = none) : r.Lacks (.missing .sourceLine)
  | sinkLine (tag) (h : r.dtype = some tag) (htag : tag ∈ DependenceKind.tags)
    (hvar : r.var.isSome) (hsource : r.sourceLine.isSome) (hsink : r.sinkLine = none) :
    r.Lacks (.missing .sinkLine)

def Formed (r : EdgeRecord) : Prop :=
  r.type = "child" ∨ r.type = "dependence" ∧ ∀ fault, ¬r.Lacks fault

inductive Offends (nodes : List NodeRecord) (before : List EdgeRecord) (r : EdgeRecord) :
    GraphError → Prop
  | type (h : r.type ≠ "child") (h' : r.type ≠ "dependence") :
    r.Offends nodes before (r.invalid (.unknownEdge r.type))
  | lacks (fault) (h : r.type = "dependence") (hlacks : r.Lacks fault) :
    r.Offends nodes before (r.invalid fault)
  | source (h : r.Formed) (hs : r.source ∉ nodes.map NodeRecord.id) :
    r.Offends nodes before (.unknownNode r.source)
  | target (h : r.Formed) (hs : r.source ∈ nodes.map NodeRecord.id)
    (ht : r.target ∉ nodes.map NodeRecord.id) : r.Offends nodes before (.unknownNode r.target)
  | attached (parent) (h : r.type = "child") (hs : r.source ∈ nodes.map NodeRecord.id)
    (ht : r.target ∈ nodes.map NodeRecord.id) (ha : Snapshot.Attaches before parent r.target) :
    r.Offends nodes before (.multipleParents r.target r.source parent)
  | cycle (h : r.type = "child") (hs : r.source ∈ nodes.map NodeRecord.id)
    (ht : r.target ∈ nodes.map NodeRecord.id)
    (hroot : ∀ parent, ¬Snapshot.Attaches before parent r.target)
    (hchain : Relation.ReflTransGen (Snapshot.Attaches before) r.target r.source) :
    r.Offends nodes before (.containmentCycle r.source r.target)
  | sourceKind (n payload) (h : r.type = "dependence") (hf : ∀ fault, ¬r.Lacks fault)
    (ht : r.target ∈ nodes.map NodeRecord.id) (hn : n ∈ nodes) (hid : n.id = r.source)
    (hsel : n.Selects payload) (hk : payload.kind ≠ .unit) :
    r.Offends nodes before (r.invalid (.endpoint r.source payload.kind))
  | targetKind (m n payload) (h : r.type = "dependence") (hf : ∀ fault, ¬r.Lacks fault)
    (hm : m ∈ nodes) (hs : m.id = r.source) (hunit : m.type = "cu") (hn : n ∈ nodes)
    (hid : n.id = r.target) (hsel : n.Selects payload) (hk : payload.kind ≠ .unit) :
    r.Offends nodes before (r.invalid (.endpoint r.target payload.kind))

variable {r : EdgeRecord} {nodes : List NodeRecord} {before : List EdgeRecord} {b b' : Builder}
  {g : Graph} {d : Dependence} {e : GraphError}

theorem needs_eq_error {α : Type} {field : DependenceField} {value : Option α} :
    r.needs field value = .error e ↔ value = none ∧ e = r.invalid (.missing field) := by
  cases value <;> simp [needs, eq_comm]

theorem parseKind_eq_error {tag : String} : r.parseKind tag = .error e ↔
    tag ∉ DependenceKind.tags ∧ e = r.invalid (.unknownDependence tag) := by
  simp only [DependenceKind.mem_tags, ← DependenceKind.ofTag?_eq_some]
  rw [parseKind]
  cases DependenceKind.ofTag? tag <;> simp [eq_comm]

theorem toDependence_eq_error :
    r.toDependence = .error e ↔ ∃ fault, r.Lacks fault ∧ e = r.invalid fault := by
  rw [toDependence_eq]
  simp only [bind_eq_error, needs_eq_error, parseKind_eq_error, needs_ok, parseKind_ok]
  constructor
  · rintro (⟨h, rfl⟩ | ⟨tag, h, ⟨hnot, rfl⟩ | ⟨kind, rfl, hrest⟩⟩)
    · exact ⟨_, .dtype h, rfl⟩
    · exact ⟨_, .tag tag h hnot, rfl⟩
    have htag := DependenceKind.mem_tags.mpr ⟨kind, rfl⟩
    obtain ⟨hvar, rfl⟩ | ⟨var, hvar, hrest⟩ := hrest
    · exact ⟨_, .var _ h htag hvar, rfl⟩
    have hvar := Option.isSome_iff_exists.mpr ⟨var, hvar⟩
    obtain ⟨hsource, rfl⟩ | ⟨line, hsource, hrest⟩ := hrest
    · exact ⟨_, .sourceLine _ h htag hvar hsource, rfl⟩
    have hsource := Option.isSome_iff_exists.mpr ⟨line, hsource⟩
    obtain ⟨hsink, rfl⟩ | ⟨_, _, hrest⟩ := hrest
    · exact ⟨_, .sinkLine _ h htag hvar hsource hsink, rfl⟩
    · cases hrest
  · rintro ⟨fault, h, rfl⟩
    -- every field that is looked at before the missing one is there
    cases h with
    | dtype h => exact .inl ⟨h, rfl⟩
    | tag tag h hnot => exact .inr ⟨tag, h, .inl ⟨hnot, rfl⟩⟩
    | var tag h htag hvar =>
      obtain ⟨kind, rfl⟩ := DependenceKind.mem_tags.mp htag
      exact .inr ⟨_, h, .inr ⟨kind, rfl, .inl ⟨hvar, rfl⟩⟩⟩
    | sourceLine tag h htag hvar hsource =>
      obtain ⟨kind, rfl⟩ := DependenceKind.mem_tags.mp htag
      obtain ⟨var, hvar⟩ := Option.isSome_iff_exists.mp hvar
      exact .inr ⟨_, h, .inr ⟨kind, rfl, .inr ⟨var, hvar, .inl ⟨hsource, rfl⟩⟩⟩⟩
    | sinkLine tag h htag hvar hsource hsink =>
      obtain ⟨kind, rfl⟩ := DependenceKind.mem_tags.mp htag
      obtain ⟨var, hvar⟩ := Option.isSome_iff_exists.mp hvar
      obtain ⟨line, hsource⟩ := Option.isSome_iff_exists.mp hsource
      exact .inr ⟨_, h, .inr ⟨kind, rfl, .inr ⟨var, hvar, .inr ⟨line, hsource,
        .inl ⟨hsink, rfl⟩⟩⟩⟩⟩

theorem not_lacks_of_toDependence (h : r.toDependence = .ok d) (fault : EdgeFault) :
    ¬r.Lacks fault := by
  intro hlacks
  rw [toDependence_eq_error.mpr ⟨fault, hlacks, rfl⟩] at h
  cases h

theorem not_formed_of_toDependence (h : r.toDependence = .error e) (htype : r.type = "dependence") :
    ¬r.Formed := by
  obtain ⟨fault, hlacks, _⟩ := toDependence_eq_error.mp h
  rintro (hchild | ⟨_, hf⟩)
  · simp [htype] at hchild
  · exact hf fault hlacks

/-- A record that is not well formed is refused for that, whatever was listed before. -/
theorem offends_of_not_formed (hnot : ¬r.Formed) : r.Offends nodes before e ↔
    r.type ≠ "child" ∧ r.type ≠ "dependence" ∧ e = r.invalid (.unknownEdge r.type) ∨
      r.type = "dependence" ∧ r.toDependence = .error e := by
  constructor
  · intro h
    -- the constructors that come after the two first ones take for granted that the record is
    -- formed
    cases h with
    | type h h' => exact .inl ⟨h, h', rfl⟩
    | lacks fault h hlacks => exact .inr ⟨h, toDependence_eq_error.mpr ⟨fault, hlacks, rfl⟩⟩
    | source h => exact absurd h hnot
    | target h => exact absurd h hnot
    | attached _ h => exact absurd (.inl h) hnot
    | cycle h => exact absurd (.inl h) hnot
    | sourceKind _ _ h hf => exact absurd (.inr ⟨h, hf⟩) hnot
    | targetKind _ _ _ h hf => exact absurd (.inr ⟨h, hf⟩) hnot
  · rintro (⟨h, h', rfl⟩ | ⟨h, hd⟩)
    · exact .type h h'
    · obtain ⟨fault, hlacks, rfl⟩ := toDependence_eq_error.mp hd
      exact .lacks fault h hlacks

/-- A record whose ends are not both listed is refused for that before it is looked at further. -/
theorem Offends.ends (h : r.Offends nodes before e) (hformed : r.Formed) :
    r.source ∉ nodes.map NodeRecord.id ∧ e = .unknownNode r.source ∨
      r.source ∈ nodes.map NodeRecord.id ∧
        (r.target ∉ nodes.map NodeRecord.id ∧ e = .unknownNode r.target ∨
          r.target ∈ nodes.map NodeRecord.id) := by
  cases h with
  | type h h' => exact absurd hformed fun hf => hf.elim h fun hf => h' hf.1
  | lacks fault h hlacks =>
    obtain hchild | ⟨_, hf⟩ := hformed
    · simp [h] at hchild
    · exact absurd hlacks (hf fault)
  | source _ hs => exact .inl ⟨hs, rfl⟩
  | target _ hs ht => exact .inr ⟨hs, .inl ⟨ht, rfl⟩⟩
  | attached _ _ hs ht => exact .inr ⟨hs, .inr ht⟩
  | cycle _ hs ht => exact .inr ⟨hs, .inr ht⟩
  | sourceKind n _ _ _ ht hn hid => exact .inr ⟨List.mem_map.mpr ⟨n, hn, hid⟩, .inr ht⟩
  | targetKind m n _ _ _ hm hs _ hn hid =>
    exact .inr ⟨List.mem_map.mpr ⟨m, hm, hs⟩, .inr (List.mem_map.mpr ⟨n, hn, hid⟩)⟩

/-- A child record between two listed nodes can only be one too many or close a cycle. -/
theorem offends_child_iff (htype : r.type = "child") (hs : r.source ∈ nodes.map NodeRecord.id)
    (ht : r.target ∈ nodes.map NodeRecord.id) : r.Offends nodes before e ↔
      (∃ parent, Snapshot.Attaches before parent r.target ∧
        e = .multipleParents r.target r.source parent) ∨
      (∀ parent, ¬Snapshot.Attaches before parent r.target) ∧
        Relation.ReflTransGen (Snapshot.Attaches before) r.target r.source ∧
        e = .containmentCycle r.source r.target := by
  have hne : r.type ≠ "dependence" := by simp [htype]
  constructor
  · intro h
    cases h with
    | type hchild => exact absurd htype hchild
    | lacks _ hdep => exact absurd hdep hne
    | source _ hnot => exact absurd hs hnot
    | target _ _ hnot => exact absurd ht hnot
    | attached parent _ _ _ ha => exact .inl ⟨parent, ha, rfl⟩
    | cycle _ _ _ hroot hchain => exact .inr ⟨hroot, hchain, rfl⟩
    | sourceKind _ _ hdep => exact absurd hdep hne
    | targetKind _ _ _ hdep => exact absurd hdep hne
  · rintro (⟨parent, ha, rfl⟩ | ⟨hroot, hchain, rfl⟩)
    · exact .attached parent htype hs ht ha
    · exact .cycle htype hs ht hroot hchain

/-- A dependence record between two listed nodes can only have an end that is not a unit.  That of
the source is met first. -/
theorem offends_dependence_iff (htype : r.type = "dependence") (hf : ∀ fault, ¬r.Lacks fault)
    (hs : r.source ∈ nodes.map NodeRecord.id) (ht : r.target ∈ nodes.map NodeRecord.id) :
    r.Offends nodes before e ↔
      (∃ n ∈ nodes, n.id = r.source ∧ ∃ payload, n.Selects payload ∧
        payload.kind ≠ .unit ∧ e = r.invalid (.endpoint r.source payload.kind)) ∨
      (∃ m ∈ nodes, m.id = r.source ∧ m.type = "cu") ∧
        ∃ n ∈ nodes, n.id = r.target ∧ ∃ payload, n.Selects payload ∧
          payload.kind ≠ .unit ∧ e = r.invalid (.endpoint r.target payload.kind) := by
  have hne : r.type ≠ "child" := by simp [htype]
  constructor
  · intro h
    cases h with
    | type _ hdep => exact absurd htype hdep
    | lacks fault _ hlacks => exact absurd hlacks (hf fault)
    | source _ hnot => exact absurd hs hnot
    | target _ _ hnot => exact absurd ht hnot
    | attached _ hchild => exact absurd hchild hne
    | cycle hchild => exact absurd hchild hne
    | sourceKind n payload _ _ _ hn hid hsel hk =>
      exact .inl ⟨n, hn, hid, payload, hsel, hk, rfl⟩
    | targetKind m n payload _ _ hm hmid hunit hn hid hsel hk =>
      exact .inr ⟨⟨m, hm, hmid, hunit⟩, n, hn, hid, payload, hsel, hk, rfl⟩
  · rintro (⟨n, hn, hid, payload, hsel, hk, rfl⟩ |
      ⟨⟨m, hm, hmid, hunit⟩, n, hn, hid, payload, hsel, hk, rfl⟩)
    · exact .sourceKind n payload htype hf ht hn hid hsel hk
    · exact .targetKind m n payload htype hf hm hmid hunit hn hid hsel hk

theorem sound_addTo (hb : b.Sound) (h : r.addTo b = .ok b') : b'.Sound := by
  obtain ⟨e, _, he⟩ := addTo_ok.mp h
  exact (Builder.addEdge_ok hb he).1

end EdgeRecord

namespace Snapshot.Describes

variable {s : Snapshot} {g : Graph} {n p c : Nat} {id : String} {node : Node} {r : EdgeRecord}
  {d : Dependence} {e : GraphError}

theorem not_names (h : s.Describes g) : (∀ n, ¬g.Names id n) ↔ id ∉ s.nodes.map NodeRecord.id := by
  rw [← not_exists, h.exists_names]

theorem mem_of_names (h : s.Describes g) (hn : g.Names id n) : id ∈ s.nodes.map NodeRecord.id :=
  h.exists_names.mp ⟨n, hn⟩

/-- The record with the identifier of a node selects the payload of the node. -/
theorem payload_eq (h : s.Describes g) (hg : g.Sound) (hn : g.node? n = some node)
    {record : NodeRecord} (hr : record ∈ s.nodes) (hid : record.id = node.id) {payload : Payload}
    (hsel : record.Selects payload) : payload = node.payload := by
  obtain ⟨m, hm⟩ := List.mem_iff_getElem?.mp hr
  obtain ⟨found, hfound, payload', hsel', rfl⟩ := getElem?_of_forall₂ h.nodes hm
  rw [Array.getElem?_toList, ← Graph.node?] at hfound
  have hnm := hg.names_unique ⟨node, hn, hid.symm⟩ ⟨_, hfound, rfl⟩
  rw [← hnm, hn] at hfound
  rw [Option.some.inj hfound]
  exact NodeRecord.selects_unique hsel hsel'

theorem type_eq_unit (h : s.Describes g) (hg : g.Sound) (hn : g.node? n = some node)
    {record : NodeRecord} (hr : record ∈ s.nodes) (hid : record.id = node.id) :
    record.type = "cu" ↔ node.kind = .unit := by
  obtain ⟨_, _, payload, hsel, _⟩ := exists_right_of_forall₂ h.nodes hr
  rw [← hsel.kind_eq_unit, h.payload_eq hg hn hr hid hsel]
  rfl

/-- What some record with the identifier of a node selects has a property if the payload of the
node has it, as there is such a record and all of them select the same. -/
theorem exists_selects_iff (h : s.Describes g) (hg : g.Sound) (hn : g.node? n = some node)
    {P : Payload → Prop} :
    (∃ r ∈ s.nodes, r.id = node.id ∧ ∃ payload, r.Selects payload ∧ P payload) ↔
      P node.payload := by
  constructor
  · rintro ⟨r, hr, hid, payload, hsel, hP⟩
    rwa [← h.payload_eq hg hn hr hid hsel]
  · intro hP
    obtain ⟨r, hr, hid, hsel⟩ := h.exists_record hn
    exact ⟨r, hr, hid, _, hsel, hP⟩

theorem exists_unit_iff (h : s.Describes g) (hg : g.Sound) (hn : g.node? n = some node) :
    (∃ r ∈ s.nodes, r.id = node.id ∧ r.type = "cu") ↔ node.kind = .unit := by
  constructor
  · rintro ⟨r, hr, hid, htype⟩
    exact (h.type_eq_unit hg hn hr hid).mp htype
  · intro hk
    obtain ⟨r, hr, hid, _⟩ := h.exists_record hn
    exact ⟨r, hr, hid, (h.type_eq_unit hg hn hr hid).mpr hk⟩

/-- The ends of a record are looked up first, and in the same way for either type. -/
theorem offends_iff (h : s.Describes g) (hformed : r.Formed) : r.Offends s.nodes s.edges e ↔
    (∀ n, ¬g.Names r.source n) ∧ e = .unknownNode r.source ∨
      ∃ m, g.Names r.source m ∧ ((∀ n, ¬g.Names r.target n) ∧ e = .unknownNode r.target ∨
        ∃ n, g.Names r.target n ∧ r.Offends s.nodes s.edges e) := by
  -- identifiers name nodes of the graph exactly if they are listed
  simp only [h.not_names]
  constructor
  · intro hoff
    obtain hs | ⟨hs, ht⟩ := hoff.ends hformed
    · exact .inl hs
    obtain ⟨m, hm⟩ := h.exists_names.mpr hs
    obtain ht | ht := ht
    · exact .inr ⟨m, hm, .inl ht⟩
    · obtain ⟨n, hn⟩ := h.exists_names.mpr ht
      exact .inr ⟨m, hm, .inr ⟨n, hn, hoff⟩⟩
  · rintro (⟨hs, rfl⟩ | ⟨m, hm, ⟨ht, rfl⟩ | ⟨n, _, hoff⟩⟩)
    · exact .source hformed hs
    · exact .target hformed (h.mem_of_names hm) ht
    · exact hoff

/-- A root is a node that no child record puts below another. -/
theorem parent?_eq_none (h : s.Describes g) (hg : g.Sound) (hc : g.Names id c) :
    g.parent? c = none ↔ ∀ parent, ¬Attaches s.edges parent id := by
  rw [Option.eq_none_iff_forall_ne_some]
  constructor
  · intro hroot parent ha
    obtain ⟨q, _, hq, _⟩ := h.names_of_attaches ha
    exact hroot q ((h.parent?_eq_some hg hq hc).mpr ha)
  · intro hroot q hq
    obtain ⟨existing, hexisting⟩ := Graph.exists_node? (hg.forest.below c q hq).2
    exact hroot _ ((h.parent?_eq_some hg ⟨existing, hexisting, rfl⟩ hc).mp hq)

theorem refuses_child (h : s.Describes g) (hg : g.Sound) (htype : r.type = "child")
    (hp : g.Names r.source p) (hc : g.Names r.target c) :
    g.Refuses (.child p c) e ↔ r.Offends s.nodes s.edges e := by
  have hroot := h.parent?_eq_none hg hc
  have hclimbs := h.climbs_iff hg hc hp
  rw [EdgeRecord.offends_child_iff htype (h.mem_of_names hp) (h.mem_of_names hc), ← hroot,
    ← hclimbs]
  -- both sides ask the same two questions: what stands above the child, and whether it stands above
  -- its parent
  obtain ⟨source, hsource, hsid⟩ := id hp
  obtain ⟨target, htarget, htid⟩ := id hc
  rw [Graph.refuses_child_iff hsource htarget, hsid, htid]
  refine or_congr_left ⟨?_, ?_⟩
  · rintro ⟨q, existing, hq, hexisting, rfl⟩
    exact ⟨_, (h.parent?_eq_some hg ⟨existing, hexisting, rfl⟩ hc).mp hq, rfl⟩
  · rintro ⟨parent, ha, rfl⟩
    obtain ⟨q, _, hq, _⟩ := h.names_of_attaches ha
    have hparent := (h.parent?_eq_some hg hq hc).mpr ha
    obtain ⟨existing, hexisting, rfl⟩ := hq
    exact ⟨q, existing, hparent, hexisting, rfl⟩

theorem refuses_dependence (h : s.Describes g) (hg : g.Sound) (htype : r.type = "dependence")
    (hf : ∀ fault, ¬r.Lacks fault) (hp : g.Names r.source p) (hc : g.Names r.target c) :
    g.Refuses (.dependence p c d) e ↔ r.Offends s.nodes s.edges e := by
  rw [EdgeRecord.offends_dependence_iff htype hf (h.mem_of_names hp) (h.mem_of_names hc)]
  obtain ⟨source, hsource, hsid⟩ := hp
  obtain ⟨target, htarget, htid⟩ := hc
  simp only [EdgeRecord.invalid]
  rw [Graph.refuses_dependence_iff hsource htarget, ← hsid, ← htid, h.exists_unit_iff hg hsource,
    h.exists_selects_iff hg hsource, h.exists_selects_iff hg htarget]
  rfl

/-- What an edge record meets in the graph so far it could have read off the records so far. -/
theorem addTo_eq_error {b : Builder} (h : s.Describes b.graph) (hb : b.Sound) (r : EdgeRecord)
    (e : GraphError) : r.addTo b = .error e ↔ r.Offends s.nodes s.edges e := by
  rw [EdgeRecord.addTo]
  split
  · rename_i htype
    -- a child record
    rw [Builder.addChildById, hb.resolve_both_eq_error, h.offends_iff (.inl htype)]
    simp only [hb.addChild_eq_error]
    exact or_congr_right (exists_congr fun p => and_congr_right fun hp =>
      or_congr_right (exists_congr fun c => and_congr_right fun hc =>
        h.refuses_child hb.graph htype hp hc))
  · rename_i htype
    -- a dependence record, whose fields are looked at before its ends
    rw [bind_eq_error]
    cases hd : r.toDependence with
    | error e' =>
      rw [EdgeRecord.offends_of_not_formed (EdgeRecord.not_formed_of_toDependence hd htype)]
      simp [htype, hd]
    | ok d =>
      simp only [reduceCtorEq, false_or, Except.ok.injEq, exists_eq_left']
      have hf := EdgeRecord.not_lacks_of_toDependence hd
      rw [Builder.addDependenceById, hb.resolve_both_eq_error, h.offends_iff (.inr ⟨htype, hf⟩)]
      simp only [Builder.addDependence_eq_error]
      exact or_congr_right (exists_congr fun p => and_congr_right fun hp =>
        or_congr_right (exists_congr fun c => and_congr_right fun hc =>
          h.refuses_dependence hb.graph htype hf hp hc))
  · rename_i hchild hdep
    -- a record of neither type
    replace hchild : r.type ≠ "child" := hchild
    replace hdep : r.type ≠ "dependence" := hdep
    have hnot : ¬r.Formed := fun hformed => hformed.elim hchild fun hf => hdep hf.1
    rw [EdgeRecord.offends_of_not_formed hnot, Except.error.injEq, eq_comm]
    simp [hchild, hdep]

end Snapshot.Describes

/-! ## Whole snapshots -/

namespace Snapshot

variable {s : Snapshot} {g : Graph} {e : GraphError}

theorem sound_addEdges {rs : List EdgeRecord} {b b' : Builder} (hb : b.Sound)
    (h : rs.foldlM (fun b r => r.addTo b) b = .ok b') : b'.Sound := by
  induction rs generalizing b with
  | nil =>
    cases h
    exact hb
  | cons r rs ih =>
    obtain ⟨b'', hr, h⟩ := bind_eq_ok.mp h
    exact ih (EdgeRecord.sound_addTo hb hr) h

/-- The node records are refused by the first of them that offends, else the edge records are. -/
theorem toGraph_decides (s : Snapshot) :
    ((∃ g, s.toGraph = .ok g) ↔ Clean (fun before r => r.Offends before) s.nodes ∧
      Clean (fun before r => r.Offends s.nodes before) s.edges) ∧
    ∀ e, s.toGraph = .error e ↔ FirstOffence (fun before r => r.Offends before) s.nodes e ∨
      Clean (fun before r => r.Offends before) s.nodes ∧
        FirstOffence (fun before r => r.Offends s.nodes before) s.edges e := by
  obtain ⟨hnodes, hnodesError⟩ := foldlM_decides
    (fun (before : List NodeRecord) b h => addRecord_eq_error h) s.nodes
  rw [← hnodes]
  simp only [← hnodesError, toGraph]
  cases hb : s.nodes.foldlM addRecord Builder.empty with
  | error e' => simp [bind, Except.bind]
  | ok b =>
    have hstep : ∀ before b', List.foldlM (fun b (r : EdgeRecord) => r.addTo b) b before = .ok b' →
        ∀ (r : EdgeRecord) e, r.addTo b' = .error e ↔ r.Offends s.nodes before e := by
      -- the records before an edge record are a snapshot of their own, with all the nodes
      intro before b' h
      have hload : (⟨s.nodes, before⟩ : Snapshot).toGraph = .ok b'.graph := by
        simp only [toGraph, hb, bind, Except.bind, h]
        rfl
      exact (describes_toGraph hload).addTo_eq_error (sound_addEdges (sound_addNodes hb) h)
    obtain ⟨hedges, hedgesError⟩ := foldlM_decides hstep s.edges
    rw [← hedges]
    simp only [← hedgesError, bind, Except.bind]
    cases s.edges.foldlM (fun b (r : EdgeRecord) => r.addTo b) b <;> simp [pure, Except.pure]

/-- What a snapshot has to fulfil to be a graph.  None of it depends on the order of the records. -/
structure Acceptable (s : Snapshot) : Prop where
  tags : ∀ r ∈ s.nodes, r.type ∈ NodeRecord.tags
  ids : (s.nodes.map NodeRecord.id).Nodup
  types : ∀ r ∈ s.edges, r.type = "child" ∨ r.type = "dependence"
  ends : ∀ r ∈ s.edges, r.source ∈ s.nodes.map NodeRecord.id ∧
    r.target ∈ s.nodes.map NodeRecord.id
  fields : ∀ r ∈ s.edges, r.type = "dependence" → (∃ tag ∈ DependenceKind.tags,
    r.dtype = some tag) ∧ r.var.isSome ∧ r.sourceLine.isSome ∧ r.sinkLine.isSome
  units : ∀ r ∈ s.edges, r.type = "dependence" →
    ∀ n ∈ s.nodes, n.id = r.source ∨ n.id = r.target → n.type = "cu"
  single : ((s.edges.filter fun r => r.type = "child").map EdgeRecord.target).Nodup
  acyclic : ∀ id, ¬Relation.TransGen (Attaches s.edges) id id

theorem nodup_ids (h : s.toGraph = .ok g) : (s.nodes.map NodeRecord.id).Nodup := by
  obtain ⟨ns, _, hns, hnodup, _⟩ := toGraph_ok.mp h
  have hids : List.Forall₂ (· = ·) (s.nodes.map NodeRecord.id) (ns.map Node.id) := by
    rw [List.forall₂_map_left_iff, List.forall₂_map_right_iff]
    refine hns.imp fun r node hr => ?_
    obtain ⟨_, _, rfl⟩ := NodeRecord.toNode_ok.mp hr
    rfl
  rw [List.forall₂_eq_eq_eq] at hids
  rw [hids]
  exact hnodup

/-- A listed dependence has all its fields, and units at both ends. -/
theorem Describes.dependence (h : s.Describes g) (hg : g.Sound) {r : EdgeRecord}
    (hr : r ∈ s.edges) (htype : r.type = "dependence") :
    ∃ source target d, g.Names r.source source ∧ g.Names r.target target ∧
      r.toDependence = .ok d ∧ g.isKind source .unit ∧ g.isKind target .unit := by
  obtain ⟨⟨source, target, l⟩, he, hs, ht, hl⟩ := exists_right_of_forall₂ h.edges hr
  cases hl with
  | child hchild => simp [htype] at hchild
  | dependence d _ hkind hvar hsource hsink =>
    have hunits := hg.units source target d (Array.mem_toList_iff.mp he)
    exact ⟨source, target, d, hs, ht,
      EdgeRecord.toDependence_ok.mpr ⟨hkind, hvar, hsource, hsink⟩, hunits⟩

theorem Describes.type_of_isKind (h : s.Describes g) (hg : g.Sound) {n : Nat} {id : String}
    (hn : g.Names id n) (hk : g.isKind n .unit) {record : NodeRecord} (hr : record ∈ s.nodes)
    (hid : record.id = id) : record.type = "cu" := by
  obtain ⟨node, hnode, rfl⟩ := hn
  obtain ⟨node', hnode', hk⟩ := Graph.isKind_iff.mp hk
  cases hnode.symm.trans hnode'
  exact (h.type_eq_unit hg hnode hr hid).mpr hk

theorem acceptable_toGraph (h : s.toGraph = .ok g) : s.Acceptable := by
  have hg := sound_toGraph h
  have hd := describes_toGraph h
  constructor
  case tags =>
    intro r hr
    obtain ⟨_, _, payload, hsel, _⟩ := exists_right_of_forall₂ hd.nodes hr
    exact NodeRecord.exists_selects.mp ⟨payload, hsel⟩
  case ids => exact nodup_ids h
  case types =>
    intro r hr
    obtain ⟨⟨_, _, l⟩, _, _, _, hl⟩ := exists_right_of_forall₂ hd.edges hr
    cases hl with
    | child htype => exact .inl htype
    | dependence _ htype => exact .inr htype
  case ends =>
    intro r hr
    obtain ⟨_, _, hs, ht, _⟩ := exists_right_of_forall₂ hd.edges hr
    exact ⟨hd.mem_of_names hs, hd.mem_of_names ht⟩
  case fields =>
    intro r hr htype
    obtain ⟨_, _, d, _, _, hdep, _⟩ := hd.dependence hg hr htype
    obtain ⟨hkind, hvar, hsource, hsink⟩ := EdgeRecord.toDependence_ok.mp hdep
    refine ⟨⟨_, DependenceKind.mem_tags.mpr ⟨d.kind, rfl⟩, hkind⟩, ?_⟩
    simp [hvar, hsource, hsink]
  case units =>
    intro r hr htype n hn hid
    obtain ⟨_, _, _, hs, ht, _, hsk, htk⟩ := hd.dependence hg hr htype
    obtain hid | hid := hid
    · exact hd.type_of_isKind hg hs hsk hn hid
    · exact hd.type_of_isKind hg ht htk hn hid
  case single => exact hd.nodup_targets hg
  case acyclic => exact hd.acyclic hg

theorem Acceptable.clean_nodes (h : s.Acceptable) :
    Clean (fun before r => NodeRecord.Offends before r) s.nodes := by
  intro before r after hs e hoff
  have hids := h.ids
  rw [hs, List.map_append, List.map_cons, List.nodup_middle, List.nodup_cons] at hids
  cases hoff with
  | tag htag => exact htag (h.tags r (by simp [hs]))
  | duplicate _ hid => exact hids.1 (List.mem_append_left _ hid)

theorem Acceptable.clean_edges (h : s.Acceptable) :
    Clean (fun before r => EdgeRecord.Offends s.nodes before r) s.edges := by
  intro before r after hs e hoff
  have hr : r ∈ s.edges := by simp [hs]
  have hends := h.ends r hr
  cases hoff with
  | type hchild hdep => exact (h.types r hr).elim hchild hdep
  | lacks fault htype hlacks =>
    obtain ⟨⟨tag, htag, hdtype⟩, hvar, hsource, hsink⟩ := h.fields r hr htype
    cases hlacks <;> grind
  | source _ hnot => exact hnot hends.1
  | target _ _ hnot => exact hnot hends.2
  | attached parent htype _ _ ha =>
    obtain ⟨other, hother, hchild, _, htarget⟩ := ha
    have hsingle := h.single
    rw [hs, List.filter_append, List.filter_cons_of_pos (by simpa using htype), List.map_append,
      List.map_cons, List.nodup_middle, List.nodup_cons] at hsingle
    refine hsingle.1 (List.mem_append_left _ (List.mem_map.mpr ⟨other, ?_, htarget⟩))
    simp [hother, hchild]
  | cycle htype _ _ _ hchain =>
    -- the record would close the chain that is there before it
    have hall : Relation.ReflTransGen (Attaches s.edges) r.target r.source := by
      refine Relation.ReflTransGen.mono (fun parent child ha => ?_) _ _ hchain
      obtain ⟨other, hother, hends⟩ := ha
      exact ⟨other, by simp [hs, hother], hends⟩
    exact h.acyclic r.target (.tail' hall ⟨r, hr, htype, rfl, rfl⟩)
  | sourceKind n _ htype _ _ hn hid hsel hk =>
    exact hk (hsel.kind_eq_unit.mpr (h.units r hr htype n hn (.inl hid)))
  | targetKind _ n _ htype _ _ _ _ hn hid hsel hk =>
    exact hk (hsel.kind_eq_unit.mpr (h.units r hr htype n hn (.inr hid)))

/-- A snapshot is a graph exactly when it is acceptable as a whole, in whatever order its records
come.  The graph has the listed nodes and edges in the listed order, and a snapshot that is refused
is refused for its first offending record. -/
theorem toGraph_exact (s : Snapshot) :
    ((∃ g, s.toGraph = .ok g) ↔ s.Acceptable) ∧
    (∀ g, s.toGraph = .ok g → s.Describes g ∧ ∀ parent p, g.Names parent p →
      List.Forall₂ (fun r c => g.Names r.target c) (below s.edges parent) (g.children p)) ∧
    ∀ e, s.toGraph = .error e ↔ FirstOffence (fun before r => r.Offends before) s.nodes e ∨
      Clean (fun before r => r.Offends before) s.nodes ∧
        FirstOffence (fun before r => r.Offends s.nodes before) s.edges e := by
  refine ⟨⟨?_, fun h => ?_⟩, fun g h => ?_, (toGraph_decides s).2⟩
  · rintro ⟨g, h⟩
    exact acceptable_toGraph h
  · exact (toGraph_decides s).1.mpr ⟨h.clean_nodes, h.clean_edges⟩
  · have hd := describes_toGraph h
    exact ⟨hd, fun parent p hp => hd.children (sound_toGraph h) hp⟩

end Snapshot

end UnitGraph
