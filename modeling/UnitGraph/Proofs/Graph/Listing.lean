import UnitGraph.Proofs.Graph.Refusals

/-!
# What a loaded graph has in common with its records

Node by node and edge by edge the graph is what the records list.  So identifiers of records and
numbers of nodes say the same about containment: an edge of the graph is a child record, and a climb
is a chain of child records.
-/

namespace UnitGraph

/-! ## Single records -/

namespace NodeRecord

/-- The tags of nodes; a function has two. -/
def tags : List String := ["func", "function", "loop", "cu", "dummy"]

inductive Selects (r : NodeRecord) : Payload → Prop
  | unit (h : r.type = "cu") : r.Selects (.unit r.instructions r.block)
  | loop (h : r.type = "loop") : r.Selects (.loop r.doAll r.reduction)
  | named (name) (h : r.type = "func" ∨ r.type = "function") (hname : r.name = some name) :
    r.Selects (.function name)
  | anonymous (h : r.type = "func" ∨ r.type = "function") (hname : r.name = none) :
    r.Selects (.function r.id)
  | dummy (h : r.type = "dummy") : r.Selects .dummy

variable {r : NodeRecord} {payload payload' : Payload} {node : Node}

theorem selects_function (h : r.type = "func" ∨ r.type = "function") :
    r.Selects (r.payload .function) := by
  cases hname : r.name with
  | none =>
    rw [NodeRecord.payload, hname]
    exact .anonymous h hname
  | some name =>
    rw [NodeRecord.payload, hname]
    exact .named name h hname

theorem selects_iff : r.Selects payload ↔
    ∃ kind, NodeKind.ofTag? r.type = some kind ∧ payload = r.payload kind := by
  constructor
  · intro h
    cases h with
    | unit h => exact ⟨.unit, by rw [h]; rfl, rfl⟩
    | loop h => exact ⟨.loop, by rw [h]; rfl, rfl⟩
    | named name h hname =>
      refine ⟨.function, ?_, by simp [NodeRecord.payload, hname]⟩
      obtain h | h := h <;> rw [h] <;> rfl
    | anonymous h hname =>
      refine ⟨.function, ?_, by simp [NodeRecord.payload, hname]⟩
      obtain h | h := h <;> rw [h] <;> rfl
    | dummy h => exact ⟨.dummy, by rw [h]; rfl, rfl⟩
  · rintro ⟨kind, h, rfl⟩
    -- the branches of the match in order, two of them for functions
    unfold NodeKind.ofTag? at h
    split at h <;> cases h
    · exact selects_function (.inl ‹_›)
    · exact selects_function (.inr ‹_›)
    · exact .loop ‹_›
    · exact .unit ‹_›
    · exact .dummy ‹_›

theorem selects_unique (h : r.Selects payload) (h' : r.Selects payload') : payload = payload' := by
  obtain ⟨kind, hkind, rfl⟩ := selects_iff.mp h
  obtain ⟨kind', hkind', rfl⟩ := selects_iff.mp h'
  rw [Option.some.inj (hkind.symm.trans hkind')]

theorem exists_selects : (∃ payload, r.Selects payload) ↔ r.type ∈ tags := by
  simp only [tags, List.mem_cons, List.not_mem_nil, or_false]
  constructor
  · rintro ⟨_, h⟩
    cases h <;> grind
  · rintro (h | h | h | h | h)
    · exact ⟨_, selects_function (.inl h)⟩
    · exact ⟨_, selects_function (.inr h)⟩
    · exact ⟨_, .loop h⟩
    · exact ⟨_, .unit h⟩
    · exact ⟨_, .dummy h⟩

theorem Selects.kind_eq_unit (h : r.Selects payload) : payload.kind = .unit ↔ r.type = "cu" := by
  cases h <;> grind [Payload.kind]

theorem toNode_ok : r.toNode = .ok node ↔
    ∃ payload, r.Selects payload ∧ node = { id := r.id, line := r.line, payload } := by
  simp only [selects_iff]
  rw [toNode, NodeKind.parse, bind_eq_ok]
  cases NodeKind.ofTag? r.type with
  | none => simp
  | some kind => simp [pure, Except.pure, eq_comm]

theorem toNode_eq_error {e : GraphError} :
    r.toNode = .error e ↔ r.type ∉ tags ∧ e = .invalidNodeType r.id r.type := by
  rw [← exists_selects]
  simp only [selects_iff]
  rw [toNode, NodeKind.parse, bind_eq_error]
  cases NodeKind.ofTag? r.type with
  | none => simp [eq_comm]
  | some kind => simp [pure, Except.pure]

end NodeRecord

theorem DependenceKind.ofTag?_eq_some {tag : String} {kind : DependenceKind} :
    ofTag? tag = some kind ↔ tag = kind.tag := by
  constructor
  · intro h
    unfold ofTag? at h
    split at h <;> cases h <;> rfl
  · rintro rfl
    exact ofTag?_tag kind

namespace EdgeRecord

inductive Labels (r : EdgeRecord) : EdgeLabel → Prop
  | child (h : r.type = "child") : r.Labels .child
  | dependence (d : Dependence) (h : r.type = "dependence") (kind : r.dtype = some d.kind.tag)
    (var : r.var = some d.var) (sourceLine : r.sourceLine = some d.sourceLine)
    (sinkLine : r.sinkLine = some d.sinkLine) : r.Labels (.dependence d)

variable {r : EdgeRecord} {g : Graph} {e : Edge} {l : EdgeLabel} {d : Dependence}

def parseKind (r : EdgeRecord) (tag : String) : Except GraphError DependenceKind :=
  match DependenceKind.ofTag? tag with
  | some kind => .ok kind
  | none => .error (r.invalid (.unknownDependence tag))

theorem parseKind_ok {tag : String} {kind : DependenceKind} :
    r.parseKind tag = .ok kind ↔ tag = kind.tag := by
  rw [← DependenceKind.ofTag?_eq_some, parseKind]
  cases DependenceKind.ofTag? tag <;> simp

theorem toDependence_eq (r : EdgeRecord) : r.toDependence = (do
    let kind ← r.parseKind (← r.needs .kind r.dtype)
    let var ← r.needs .var r.var
    let sourceLine ← r.needs .sourceLine r.sourceLine
    let sinkLine ← r.needs .sinkLine r.sinkLine
    return ⟨kind, var, sourceLine, sinkLine⟩) := by
  rw [toDependence]
  congr 1
  funext tag
  rw [parseKind]
  cases DependenceKind.ofTag? tag <;> rfl

theorem needs_ok {α : Type} {field : DependenceField} {value : Option α} {a : α} :
    r.needs field value = .ok a ↔ value = some a := by
  cases value <;> simp [needs]

theorem toDependence_ok : r.toDependence = .ok d ↔
    r.dtype = some d.kind.tag ∧ r.var = some d.var ∧ r.sourceLine = some d.sourceLine ∧
      r.sinkLine = some d.sinkLine := by
  rw [toDependence_eq]
  simp only [bind_eq_ok, needs_ok, parseKind_ok]
  constructor
  · rintro ⟨tag, htag, kind, rfl, var, hvar, sourceLine, hsource, sinkLine, hsink, h⟩
    cases h
    exact ⟨htag, hvar, hsource, hsink⟩
  · rintro ⟨htag, hvar, hsource, hsink⟩
    exact ⟨_, htag, d.kind, rfl, d.var, hvar, d.sourceLine, hsource, d.sinkLine, hsink, rfl⟩

theorem labels_of_lists (h : r.Lists g e) : r.Labels e.label := by
  obtain ⟨htype, hl⟩ | ⟨htype, d, hd, hl⟩ := h.label
  · rw [hl]
    exact .child htype
  · obtain ⟨hkind, hvar, hsource, hsink⟩ := toDependence_ok.mp hd
    rw [hl]
    exact .dependence d htype hkind hvar hsource hsink

theorem Labels.isChild_iff (h : r.Labels l) : l.isChild ↔ r.type = "child" := by
  cases h with
  | child h => exact iff_of_true rfl h
  | dependence d h =>
    rw [h]
    exact iff_of_false Bool.false_ne_true (by decide)

end EdgeRecord

/-! ## All records -/

theorem getElem?_of_forall₂ {α β : Type} {R : α → β → Prop} {l : List α} {l' : List β}
    (h : List.Forall₂ R l l') {n : Nat} {a : α} (ha : l[n]? = some a) :
    ∃ b, l'[n]? = some b ∧ R a b := by
  induction h generalizing n with
  | nil => cases ha
  | cons hxy _ ih =>
    cases n with
    | zero =>
      cases ha
      exact ⟨_, rfl, hxy⟩
    | succ n => exact ih ha

theorem exists_right_of_forall₂ {α β : Type} {R : α → β → Prop} {l : List α} {l' : List β} {a : α}
    (h : List.Forall₂ R l l') (ha : a ∈ l) : ∃ b ∈ l', R a b := by
  obtain ⟨n, hn⟩ := List.mem_iff_getElem?.mp ha
  obtain ⟨b, hb, hab⟩ := getElem?_of_forall₂ h hn
  exact ⟨b, List.mem_of_getElem? hb, hab⟩

theorem exists_left_of_forall₂ {α β : Type} {R : α → β → Prop} {l : List α} {l' : List β} {b : β}
    (h : List.Forall₂ R l l') (hb : b ∈ l') : ∃ a ∈ l, R a b :=
  exists_right_of_forall₂ h.flip hb

theorem Graph.Sound.biUnique_names {g : Graph} (h : g.Sound) : Relator.BiUnique g.Names := by
  refine ⟨fun id n id' hn hn' => ?_, fun id n m hn hm => h.names_unique hn hm⟩
  obtain ⟨node, hnode, rfl⟩ := hn
  obtain ⟨node', hnode', rfl⟩ := hn'
  rw [Option.some.inj (hnode.symm.trans hnode')]

namespace Snapshot

/-- The graph has the listed nodes and the listed edges, in the order in which they are listed. -/
structure Describes (s : Snapshot) (g : Graph) : Prop where
  nodes : List.Forall₂ (fun r node => ∃ payload, r.Selects payload ∧
    node = { id := r.id, line := r.line, payload }) s.nodes g.nodes.toList
  edges : List.Forall₂ (fun r e => g.Names r.source e.source ∧ g.Names r.target e.target ∧
    r.Labels e.label) s.edges g.edges.toList

def Attaches (records : List EdgeRecord) (parent child : String) : Prop :=
  ∃ r ∈ records, r.type = "child" ∧ r.source = parent ∧ r.target = child

def below (records : List EdgeRecord) (parent : String) : List EdgeRecord :=
  records.filter fun r => r.type = "child" ∧ r.source = parent

theorem describes_of_lists {s : Snapshot} {ns : List Node} {es : List Edge}
    (hns : List.Forall₂ (fun r node => r.toNode = .ok node) s.nodes ns)
    (hes : List.Forall₂ (fun r e => r.Lists (.ofNodes ns) e) s.edges es)
    (hg : ((Graph.ofNodes ns).withEdges es).Sound) :
    s.Describes ((Graph.ofNodes ns).withEdges es) where
  nodes := by
    rw [Graph.nodes_withEdges, Graph.nodes_ofNodes]
    exact hns.imp fun _ _ => NodeRecord.toNode_ok.mp
  edges := by
    rw [Graph.edges_withEdges, Graph.edges_ofNodes]
    refine hes.imp fun r e h => ⟨?_, ?_, EdgeRecord.labels_of_lists h⟩
    · rw [← hg.byId?_eq_some, Graph.byId?, Graph.ids_withEdges]
      exact h.source
    · rw [← hg.byId?_eq_some, Graph.byId?, Graph.ids_withEdges]
      exact h.target

theorem describes_toGraph {s : Snapshot} {g : Graph} (h : s.toGraph = .ok g) : s.Describes g := by
  obtain ⟨ns, es, hns, _, hes, hsound, rfl⟩ := toGraph_ok.mp h
  exact describes_of_lists hns hes hsound

namespace Describes

variable {s : Snapshot} {g : Graph} {n p c : Nat} {id parent child : String}

theorem names_iff (h : s.Describes g) : g.Names id n ↔ ∃ r, s.nodes[n]? = some r ∧ r.id = id := by
  constructor
  · rintro ⟨node, hn, rfl⟩
    rw [Graph.node?, ← Array.getElem?_toList] at hn
    obtain ⟨r, hr, payload, _, rfl⟩ := getElem?_of_forall₂ h.nodes.flip hn
    exact ⟨r, hr, rfl⟩
  · rintro ⟨r, hr, rfl⟩
    obtain ⟨node, hn, payload, _, rfl⟩ := getElem?_of_forall₂ h.nodes hr
    rw [Array.getElem?_toList, ← Graph.node?] at hn
    exact ⟨_, hn, rfl⟩

theorem exists_names (h : s.Describes g) :
    (∃ n, g.Names id n) ↔ id ∈ s.nodes.map NodeRecord.id := by
  simp only [h.names_iff]
  rw [List.mem_map]
  constructor
  · rintro ⟨n, r, hr, rfl⟩
    exact ⟨r, List.mem_of_getElem? hr, rfl⟩
  · rintro ⟨r, hr, rfl⟩
    obtain ⟨n, hn⟩ := List.mem_iff_getElem?.mp hr
    exact ⟨n, r, hn, rfl⟩

/-- What the graph knows of a node is what the record with its identifier selects. -/
theorem exists_record (h : s.Describes g) {node : Node} (hn : g.node? n = some node) :
    ∃ r ∈ s.nodes, r.id = node.id ∧ r.Selects node.payload := by
  rw [Graph.node?, ← Array.getElem?_toList] at hn
  obtain ⟨r, hr, payload, hsel, rfl⟩ := getElem?_of_forall₂ h.nodes.flip hn
  exact ⟨r, List.mem_of_getElem? hr, rfl, hsel⟩

theorem names_of_attaches (h : s.Describes g) (ha : Attaches s.edges parent child) :
    ∃ p c, g.Names parent p ∧ g.Names child c ∧ ⟨p, c, .child⟩ ∈ g.edges := by
  obtain ⟨r, hr, htype, rfl, rfl⟩ := ha
  obtain ⟨⟨p, c, l⟩, he, hp, hc, hl⟩ := exists_right_of_forall₂ h.edges hr
  refine ⟨p, c, hp, hc, ?_⟩
  rw [← hl.isChild_iff, EdgeLabel.isChild_iff] at htype
  rw [← show l = .child from htype]
  exact Array.mem_toList_iff.mp he

theorem parent?_eq_some (h : s.Describes g) (hg : g.Sound) (hp : g.Names parent p)
    (hc : g.Names child c) : g.parent? c = some p ↔ Attaches s.edges parent child := by
  rw [hg.parent?_eq_some]
  constructor
  · intro he
    obtain ⟨r, hr, hs, ht, hl⟩ := exists_left_of_forall₂ h.edges (Array.mem_toList_iff.mpr he)
    exact ⟨r, hr, hl.isChild_iff.mp rfl, hg.biUnique_names.1 hs hp, hg.biUnique_names.1 ht hc⟩
  · intro ha
    obtain ⟨p', c', hp', hc', he⟩ := h.names_of_attaches ha
    rw [hg.names_unique hp hp', hg.names_unique hc hc']
    exact he

/-- A climb goes up a chain of child records. -/
theorem climbs_iff (h : s.Describes g) (hg : g.Sound) (hp : g.Names parent p)
    (hc : g.Names child c) :
    Climbs g.parent? c p ↔ Relation.ReflTransGen (Attaches s.edges) parent child := by
  constructor
  · intro hclimb
    -- up from the lower end: the first step of the climb is the last record of the chain
    induction hclimb using Relation.ReflTransGen.head_induction_on generalizing child with
    | refl => rw [hg.biUnique_names.1 hp hc]
    | @head c q hstep _ ih =>
      obtain ⟨node, hnode⟩ := Graph.exists_node? (hg.forest.below c q hstep).2
      have hq : g.Names node.id q := ⟨node, hnode, rfl⟩
      exact (ih hq).tail ((h.parent?_eq_some hg hq hc).mp hstep)
  · intro hchain
    -- down from the upper end: the last record of the chain is the first step of the climb
    induction hchain generalizing c with
    | refl => rw [hg.names_unique hp hc]
    | tail _ ha ih =>
      obtain ⟨q, c', hq, hc', _⟩ := h.names_of_attaches ha
      rw [hg.names_unique hc hc']
      exact (ih hq).head ((h.parent?_eq_some hg hq hc').mpr ha)

/-- The children of a node are the targets of its child records, in the order of the records. -/
theorem children (h : s.Describes g) (hg : g.Sound) (hp : g.Names parent p) :
    List.Forall₂ (fun r c => g.Names r.target c) (below s.edges parent) (g.children p) := by
  rw [Graph.children, List.forall₂_map_right_iff]
  refine (List.rel_filter (fun r e hre => ?_) h.edges).imp fun r e hre => hre.2.1
  obtain ⟨hs, _, hl⟩ := hre
  have hends : r.source = parent ↔ e.source = p := by
    constructor
    · rintro rfl
      exact hg.names_unique hs hp
    · rintro rfl
      exact hg.biUnique_names.1 hs hp
  simp only [decide_eq_true_iff, Bool.and_eq_true, hl.isChild_iff, hends, and_comm]

/-- No two child records have the same target, since no node of the graph is attached twice. -/
theorem nodup_targets (h : s.Describes g) (hg : g.Sound) :
    ((s.edges.filter fun r => r.type = "child").map EdgeRecord.target).Nodup := by
  have hnodup : ((g.edges.toList.filter fun e => e.label.isChild).map Edge.target).Nodup := by
    rw [List.nodup_iff_count_le_one]
    intro c
    refine Nat.le_trans (Nat.le_of_eq ?_) (hg.single c)
    rw [List.count_eq_countP, List.countP_map, List.countP_filter]
    rfl
  refine (List.rel_nodup hg.biUnique_names ?_).mpr hnodup
  rw [List.forall₂_map_left_iff, List.forall₂_map_right_iff]
  refine (List.rel_filter (fun r e hre => ?_) h.edges).imp fun r e hre => hre.2.1
  exact decide_eq_true_iff.trans hre.2.2.isChild_iff.symm

/-- A cycle of child records would be a climb that comes back. -/
theorem acyclic (h : s.Describes g) (hg : g.Sound) (id : String) :
    ¬Relation.TransGen (Attaches s.edges) id id := by
  intro hcycle
  obtain ⟨parent, hchain, ha⟩ := Relation.TransGen.tail'_iff.mp hcycle
  obtain ⟨p, c, hp, hc, _⟩ := h.names_of_attaches ha
  refine hg.forest.not_climbs_back ((h.parent?_eq_some hg hp hc).mpr ha) ?_
  exact (h.climbs_iff hg hc hp).mpr hchain

end Describes

end Snapshot

end UnitGraph
