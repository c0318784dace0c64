import Mathlib.Data.List.Perm.Basic
import Mathlib.Logic.Equiv.Basic
import UnitGraph.Graph.Snapshot
import UnitGraph.Proofs.Graph.Renumbering

/-!
# Loading a snapshot

Each record of a snapshot is checked against what the records before it have built.  All of these
checks together say no more than that the finished graph is sound: with fewer edges it is sound as
well, so no intermediate graph is refused.  Hence the order of the records decides nothing but the
numbers of the nodes and the order of the edges.
-/

namespace UnitGraph

/-! ## Fewer edges -/

namespace Graph

variable {g : Graph} {e : Edge} {c p : Nat}

theorem Sound.single_of_withEdge (h : (g.withEdge e).Sound) (c : Nat) :
    g.edges.toList.countP (fun e => e.target = c && e.label.isChild) ≤ 1 := by
  have hle := h.single c
  rw [countP_withEdge] at hle
  omega

theorem Sound.parent?_of_withEdge (h : (g.withEdge e).Sound) (hp : g.parent? c = some p) :
    (g.withEdge e).parent? c = some p := by
  rw [parent?_eq_some_of_single (h.single_of_withEdge c)] at hp
  rw [h.parent?_eq_some, withEdge, Array.mem_push]
  exact Or.inl hp

/-- A graph is sound if it is with one more edge. -/
theorem Sound.of_withEdge (h : (g.withEdge e).Sound) : g.Sound where
  ids := h.ids
  single := h.single_of_withEdge
  forest := by
    rcases h.forest.ranked with ⟨rank, hrank⟩
    refine ⟨fun c p hp => h.forest.below c p (h.parent?_of_withEdge hp), rank, fun c p hp => ?_⟩
    exact hrank c p (h.parent?_of_withEdge hp)
  units s t d he := by
    refine h.units s t d ?_
    rw [withEdge, Array.mem_push]
    exact Or.inl he

def withEdges (g : Graph) (es : List Edge) : Graph :=
  es.foldl withEdge g

theorem withEdges_cons (g : Graph) (e : Edge) (es : List Edge) :
    g.withEdges (e :: es) = (g.withEdge e).withEdges es := rfl

theorem Sound.of_withEdges {es : List Edge} (h : (g.withEdges es).Sound) : g.Sound := by
  induction es generalizing g with
  | nil => exact h
  | cons e es ih => exact (ih h).of_withEdge

theorem edges_withEdges (g : Graph) (es : List Edge) :
    (g.withEdges es).edges.toList = g.edges.toList ++ es := by
  induction es generalizing g with
  | nil => exact (List.append_nil _).symm
  | cons e es ih =>
    rw [withEdges_cons, ih, withEdge, Array.toList_push, List.append_assoc, List.singleton_append]

theorem nodes_withEdges (g : Graph) (es : List Edge) : (g.withEdges es).nodes = g.nodes := by
  induction es generalizing g with
  | nil => rfl
  | cons e es ih => exact ih (g.withEdge e)

theorem ids_withEdges (g : Graph) (es : List Edge) : (g.withEdges es).ids = g.ids := by
  induction es generalizing g with
  | nil => rfl
  | cons e es ih => exact ih (g.withEdge e)

end Graph

/-! ## Single edges -/

namespace Builder

variable {b b' : Builder} {e : Edge} {p c s t : Nat} {d : Dependence}

theorem resolve_ok {id : String} {n : Nat} : b.resolve id = .ok n ↔ b.graph.byId? id = some n := by
  rw [resolve]
  cases b.graph.byId? id with
  | none => exact iff_of_false (fun h => by cases h) (Option.some_ne_none n).symm
  | some m => exact (Except.ok.injEq m n).to_iff.trans (Option.some.injEq m n).to_iff.symm

theorem addChild_eq (hp : p < b.graph.nodes.size) (hc : c < b.graph.nodes.size)
    (hroot : b.parents[c]? = none) (hm : c ∉ b.lineage p) :
    b.addChild p c = .ok (b.attach p c) := by
  rcases Graph.exists_node? hp with ⟨parent, hparent⟩
  rcases Graph.exists_node? hc with ⟨child, hchild⟩
  unfold addChild idOf
  rw [Graph.require_of_some hparent, Graph.require_of_some hchild, hroot]
  simp only [Except.map, bind, Except.bind, if_neg hm]
  rfl

theorem requireUnit_eq {sourceId targetId : String} {endpoint : Node} (h : endpoint.kind = .unit) :
    requireUnit sourceId targetId endpoint = .ok () := by
  rw [requireUnit, if_pos h]

theorem addDependence_eq (hs : b.graph.isKind s .unit) (ht : b.graph.isKind t .unit) :
    b.addDependence s t d = .ok (b.pushEdge ⟨s, t, .dependence d⟩) := by
  rcases Graph.isKind_iff.mp hs with ⟨source, hsource, hskind⟩
  rcases Graph.isKind_iff.mp ht with ⟨target, htarget, htkind⟩
  rw [addDependence, Graph.require_of_some hsource, Graph.require_of_some htarget]
  simp only [bind, Except.bind, requireUnit_eq hskind, requireUnit_eq htkind]
  rfl

def addEdge (b : Builder) (e : Edge) : Except GraphError Builder :=
  match e.label with
  | .child => b.addChild e.source e.target
  | .dependence d => b.addDependence e.source e.target d

theorem addEdge_ok (hb : b.Sound) (h : b.addEdge e = .ok b') :
    b'.Sound ∧ b'.graph = b.graph.withEdge e := by
  rcases e with ⟨s, t, l⟩
  cases l with
  | child =>
    rcases addChild_ok h with ⟨hp, hc, hroot, hm, rfl⟩
    exact ⟨hb.step (.child s t hp hc hroot hm), rfl⟩
  | dependence d =>
    rcases addDependence_ok h with ⟨hs, ht, rfl⟩
    exact ⟨hb.step (.dependence s t d hs ht), rfl⟩

/-- An edge that leaves the graph sound is not refused. -/
theorem exists_addEdge (hb : b.Sound) (h : (b.graph.withEdge e).Sound) :
    ∃ b', b.addEdge e = .ok b' := by
  rcases e with ⟨p, c, l⟩
  cases l with
  | child =>
    have hparent : (b.graph.withEdge ⟨p, c, .child⟩).parent? c = some p := by
      rw [Graph.parent?_withChild, if_pos rfl]
    have hbelow := h.forest.below c p hparent
    have hroot : b.graph.parent? c = none := by
      rw [Option.eq_none_iff_forall_ne_some]
      intro q hq
      rw [hb.graph.parent?_eq_some] at hq
      -- an edge to the child and the new one would be one too many
      have hpos : 0 < b.graph.edges.toList.countP fun e => e.target = c && e.label.isChild :=
        List.countP_pos_iff.mpr ⟨_, Array.mem_toList_iff.mpr hq, by simp [EdgeLabel.isChild]⟩
      have hsingle := h.single c
      rw [Graph.countP_withEdge, EdgeLabel.isChild, Bool.and_true,
        if_pos (decide_eq_true rfl)] at hsingle
      omega
    -- a climb from the parent to the child would come back to it over the new edge
    refine ⟨_, addChild_eq hbelow.2 hbelow.1 (by rw [hb.parents, hroot]) fun hm => ?_⟩
    rw [hb.lineage, hb.graph.forest.mem_climb hbelow.2] at hm
    refine h.forest.not_climbs_back hparent ?_
    exact Relation.ReflTransGen.mono (fun _ _ hstep => h.parent?_of_withEdge hstep) _ _ hm
  | dependence d =>
    have hends := h.units p c d (Array.mem_push_self)
    exact ⟨_, addDependence_eq hends.1 hends.2⟩

end Builder

/-! ## Edge records -/

/-- The record lists the edge, its ends given by their identifiers in the graph. -/
structure EdgeRecord.Lists (r : EdgeRecord) (g : Graph) (e : Edge) : Prop where
  source : g.byId? r.source = some e.source
  target : g.byId? r.target = some e.target
  label : r.type = "child" ∧ e.label = .child ∨
    r.type = "dependence" ∧ ∃ d, r.toDependence = .ok d ∧ e.label = .dependence d

theorem EdgeRecord.lists_withEdge {r : EdgeRecord} {g : Graph} {e e' : Edge} :
    r.Lists (g.withEdge e) e' ↔ r.Lists g e' :=
  ⟨fun h => ⟨h.source, h.target, h.label⟩, fun h => ⟨h.source, h.target, h.label⟩⟩

theorem EdgeRecord.addTo_ok {r : EdgeRecord} {b b' : Builder} :
    r.addTo b = .ok b' ↔ ∃ e, r.Lists b.graph e ∧ b.addEdge e = .ok b' := by
  rw [addTo]
  split
  · rename_i htype
    simp only [Builder.addChildById, bind_eq_ok, Builder.resolve_ok]
    constructor
    · intro hin
      rcases hin with ⟨p, hp, c, hc, h⟩
      exact ⟨⟨p, c, .child⟩, ⟨hp, hc, .inl ⟨htype, rfl⟩⟩, h⟩
    · intro hin
      rcases hin with ⟨⟨p, c, l⟩, ⟨hp, hc, ⟨_, rfl⟩ | ⟨htype', _⟩⟩, h⟩
      · exact ⟨p, hp, c, hc, h⟩
      · rw [htype] at htype'
        exact absurd htype' (by decide)
  · rename_i htype
    simp only [Builder.addDependenceById, bind_eq_ok, Builder.resolve_ok]
    constructor
    · intro hin
      rcases hin with ⟨d, hd, s, hs, t, ht, h⟩
      exact ⟨⟨s, t, .dependence d⟩, ⟨hs, ht, .inr ⟨htype, d, hd, rfl⟩⟩, h⟩
    · intro hin
      rcases hin with ⟨⟨s, t, l⟩, ⟨hs, ht, ⟨htype', _⟩ | ⟨_, d, hd, rfl⟩⟩, h⟩
      · rw [htype] at htype'
        exact absurd htype' (by decide)
      · exact ⟨d, hd, s, hs, t, ht, h⟩
  · rename_i hchild hdependence
    -- an edge of neither family is refused, and none is listed
    refine iff_of_false (fun h => by cases h) ?_
    intro hin
    rcases hin with ⟨e, ⟨_, _, ⟨htype, _⟩ | ⟨htype, _⟩⟩, _⟩
    · exact hchild htype
    · exact hdependence htype

/-- All edge records are added exactly when the graph with all the edges that they list is sound. -/
theorem Snapshot.addEdges_ok {b : Builder} (hb : b.Sound) {rs : List EdgeRecord} {g : Graph} :
    (∃ b', rs.foldlM (fun b r => r.addTo b) b = .ok b' ∧ b'.graph = g) ↔
      ∃ es, List.Forall₂ (fun r e => r.Lists b.graph e) rs es ∧ (b.graph.withEdges es).Sound ∧
        g = b.graph.withEdges es := by
  induction rs generalizing b with
  | nil =>
    constructor
    · intro hin
      rcases hin with ⟨b', hb', rfl⟩
      cases hb'
      exact ⟨[], .nil, hb.graph, rfl⟩
    · intro hin
      rcases hin with ⟨es, hes, _, rfl⟩
      cases hes
      exact ⟨b, rfl, rfl⟩
  | cons r rs ih =>
    simp only [List.foldlM_cons, bind_eq_ok]
    constructor
    · intro hin
      rcases hin with ⟨b'', ⟨b', hb', h⟩, hg⟩
      rcases EdgeRecord.addTo_ok.mp hb' with ⟨e, hlists, he⟩
      rcases Builder.addEdge_ok hb he with ⟨hsound, hgraph⟩
      rcases (ih hsound).mp ⟨b'', h, hg⟩ with ⟨es, hes, hall, rfl⟩
      -- identifiers name the same nodes whether the edge is there or not
      rw [hgraph] at hes hall ⊢
      simp only [EdgeRecord.lists_withEdge] at hes
      exact ⟨e :: es, .cons hlists hes, hall, rfl⟩
    · intro hin
      rcases hin with ⟨es, hes, hall, rfl⟩
      cases hes with
      | @cons _ e _ es hlists hes =>
        -- the graph is sound at the first edge because it is at the end
        rcases Builder.exists_addEdge hb (Graph.Sound.of_withEdges hall) with ⟨b', hb'⟩
        rcases Builder.addEdge_ok hb hb' with ⟨hsound, hgraph⟩
        have hrest := ih hsound
        simp only [hgraph, EdgeRecord.lists_withEdge] at hrest
        rcases hrest.mpr ⟨es, hes, hall, rfl⟩ with ⟨b'', h, hg⟩
        exact ⟨b'', ⟨b', EdgeRecord.addTo_ok.mpr ⟨e, hlists, hb'⟩, h⟩, hg⟩

/-! ## Node records -/

def Graph.ofNodes (ns : List Node) : Graph :=
  ns.foldl withNode .empty

theorem Snapshot.addRecord_ok {b b' : Builder} {r : NodeRecord} :
    Snapshot.addRecord b r = .ok b' ↔
      ∃ node, r.toNode = .ok node ∧ node.id ∉ b.graph.ids ∧ b' = b.grow node := by
  rw [Snapshot.addRecord, bind_eq_ok]
  refine exists_congr fun node => and_congr_right fun _ => ?_
  rw [Builder.addNode_eq]
  by_cases hid : node.id ∈ b.graph.ids
  · rw [if_pos hid]
    exact iff_of_false (fun h => by cases h) fun h => h.1 hid
  · rw [if_neg hid, and_iff_right hid]
    constructor
    · intro h
      cases h
      rfl
    · rintro rfl
      rfl

theorem Graph.mem_ids_withNode {g : Graph} {node : Node} {id : String} :
    id ∈ (g.withNode node).ids ↔ node.id = id ∨ id ∈ g.ids := by
  rw [withNode, Std.ExtHashMap.mem_insert, beq_iff_eq]

structure Graph.Fresh (g : Graph) (ns : List Node) : Prop where
  nodup : (ns.map Node.id).Nodup
  fresh : ∀ node ∈ ns, node.id ∉ g.ids

theorem Graph.fresh_empty {ns : List Node} : Graph.empty.Fresh ns ↔ (ns.map Node.id).Nodup :=
  ⟨Fresh.nodup, fun h => ⟨h, fun _ _ hin => Std.ExtHashMap.not_mem_empty hin⟩⟩

/-- The first identifier is new, and the others are so still with it in the graph. -/
theorem Graph.fresh_cons {g : Graph} {node : Node} {ns : List Node} :
    g.Fresh (node :: ns) ↔ node.id ∉ g.ids ∧ (g.withNode node).Fresh ns := by
  constructor
  · intro h
    have hnodup := h.nodup
    have hfresh := h.fresh
    rw [List.map_cons, List.nodup_cons] at hnodup
    rw [List.forall_mem_cons] at hfresh
    refine ⟨hfresh.1, hnodup.2, fun m hm hin => ?_⟩
    -- what is no longer new is the identifier just added, or was there before
    rcases mem_ids_withNode.mp hin with heq | hin
    · exact hnodup.1 (List.mem_map.mpr ⟨m, hm, heq.symm⟩)
    · exact hfresh.2 m hm hin
  · intro h
    rcases h with ⟨hnode, hrest⟩
    constructor
    · rw [List.map_cons, List.nodup_cons]
      refine ⟨fun hin => ?_, hrest.nodup⟩
      rcases List.mem_map.mp hin with ⟨m, hm, heq⟩
      exact hrest.fresh m hm (mem_ids_withNode.mpr (.inl heq.symm))
    · rw [List.forall_mem_cons]
      exact ⟨hnode, fun m hm hin => hrest.fresh m hm (mem_ids_withNode.mpr (.inr hin))⟩

/-- All node records are added exactly when the identifiers are new and differ from each other. -/
theorem Snapshot.addNodes_ok {b b' : Builder} {rs : List NodeRecord} :
    rs.foldlM Snapshot.addRecord b = .ok b' ↔
      ∃ ns, List.Forall₂ (fun r node => r.toNode = .ok node) rs ns ∧ b.graph.Fresh ns ∧
        b' = ns.foldl Builder.grow b := by
  -- the builder is general: each record is added to what those before it have built
  induction rs generalizing b with
  | nil =>
    constructor
    · intro h
      cases h
      exact ⟨[], .nil, ⟨List.nodup_nil, fun _ hn => absurd hn List.not_mem_nil⟩, rfl⟩
    · intro hin
      rcases hin with ⟨ns, hns, _, rfl⟩
      cases hns
      rfl
  | cons r rs ih =>
    simp only [List.foldlM_cons, bind_eq_ok, Snapshot.addRecord_ok]
    constructor
    · intro hin
      rcases hin with ⟨_, ⟨node, hnode, hid, rfl⟩, h⟩
      rcases ih.mp h with ⟨ns, hns, hfresh, rfl⟩
      exact ⟨node :: ns, .cons hnode hns, Graph.fresh_cons.mpr ⟨hid, hfresh⟩, rfl⟩
    · intro hin
      rcases hin with ⟨ns, hns, hfresh, rfl⟩
      cases hns with
      | @cons _ node _ ns hnode hns =>
        rw [Graph.fresh_cons] at hfresh
        exact ⟨_, ⟨node, hnode, hfresh.1, rfl⟩, ih.mpr ⟨ns, hns, hfresh.2, rfl⟩⟩

namespace Builder

theorem graph_grows (b : Builder) (ns : List Node) :
    (ns.foldl grow b).graph = ns.foldl Graph.withNode b.graph := by
  induction ns generalizing b with
  | nil => rfl
  | cons node ns ih => exact ih (b.grow node)

theorem Sound.grows {b : Builder} (h : b.Sound) {ns : List Node} (hfresh : b.graph.Fresh ns) :
    (ns.foldl grow b).Sound := by
  induction ns generalizing b with
  | nil => exact h
  | cons node ns ih =>
    rw [Graph.fresh_cons] at hfresh
    exact ih (h.step (.node node hfresh.1)) hfresh.2

end Builder

namespace Graph

theorem sound_ofNodes {ns : List Node} (h : (ns.map Node.id).Nodup) : (ofNodes ns).Sound := by
  have hsound := Builder.sound_empty.grows (fresh_empty.mpr h)
  rw [ofNodes, ← Builder.graph_grows ⟨.empty, ∅⟩]
  exact hsound.graph

theorem nodes_foldl_withNode (g : Graph) (ns : List Node) :
    (ns.foldl withNode g).nodes.toList = g.nodes.toList ++ ns := by
  induction ns generalizing g with
  | nil => exact (List.append_nil _).symm
  | cons node ns ih =>
    rw [List.foldl_cons, ih, withNode, Array.toList_push, List.append_assoc,
      List.singleton_append]

theorem edges_foldl_withNode (g : Graph) (ns : List Node) :
    (ns.foldl withNode g).edges = g.edges := by
  induction ns generalizing g with
  | nil => rfl
  | cons node ns ih => exact ih (g.withNode node)

theorem nodes_ofNodes (ns : List Node) : (ofNodes ns).nodes.toList = ns :=
  nodes_foldl_withNode .empty ns

theorem node?_ofNodes (ns : List Node) (n : Nat) : (ofNodes ns).node? n = ns[n]? := by
  rw [node?, ← Array.getElem?_toList, nodes_ofNodes]

theorem edges_ofNodes (ns : List Node) : (ofNodes ns).edges = #[] :=
  edges_foldl_withNode .empty ns

end Graph

/-- A snapshot is loaded exactly when its node records have valid tags and different identifiers,
its edge records list edges between those nodes, and the graph with all of these edges is sound. -/
theorem Snapshot.toGraph_ok {s : Snapshot} {g : Graph} : s.toGraph = .ok g ↔
    ∃ ns es, List.Forall₂ (fun r node => r.toNode = .ok node) s.nodes ns ∧
      (ns.map Node.id).Nodup ∧
      List.Forall₂ (fun r e => r.Lists (.ofNodes ns) e) s.edges es ∧
      ((Graph.ofNodes ns).withEdges es).Sound ∧ g = (Graph.ofNodes ns).withEdges es := by
  -- the edge records meet a builder that already has all the nodes
  have hedges : ∀ ns : List Node, Graph.empty.Fresh ns → ((∃ b', s.edges.foldlM
      (fun b r => r.addTo b) (ns.foldl Builder.grow .empty) = .ok b' ∧ b'.graph = g) ↔
      ∃ es, List.Forall₂ (fun r e => r.Lists (.ofNodes ns) e) s.edges es ∧
        ((Graph.ofNodes ns).withEdges es).Sound ∧ g = (Graph.ofNodes ns).withEdges es) := by
    intro ns hfresh
    have hgraph : (ns.foldl Builder.grow .empty).graph = .ofNodes ns := Builder.graph_grows _ ns
    rw [addEdges_ok (Builder.sound_empty.grows hfresh), hgraph]
  simp only [toGraph, bind_eq_ok, addNodes_ok]
  constructor
  · intro hin
    rcases hin with ⟨_, ⟨ns, hns, hfresh, rfl⟩, b', hb', hg⟩
    cases hg
    rcases (hedges ns hfresh).mp ⟨b', hb', rfl⟩ with ⟨es, hes, hall, hg⟩
    exact ⟨ns, es, hns, hfresh.nodup, hes, hall, hg⟩
  · intro hin
    rcases hin with ⟨ns, es, hns, hnodup, hes, hall, hg⟩
    have hfresh := Graph.fresh_empty.mpr hnodup
    rcases (hedges ns hfresh).mpr ⟨es, hes, hall, hg⟩ with ⟨b', hb', hgraph⟩
    exact ⟨_, ⟨ns, hns, hfresh, rfl⟩, b', hb', congrArg Except.ok hgraph⟩

theorem Snapshot.sound_toGraph {s : Snapshot} {g : Graph} (h : s.toGraph = .ok g) : g.Sound := by
  rcases toGraph_ok.mp h with ⟨ns, es, _, _, _, hsound, rfl⟩
  exact hsound

/-! ## Records in another order -/

/-- One entry more at the head moves all others by one. -/
def succPerm (σ : Equiv.Perm Nat) : Equiv.Perm Nat where
  toFun
    | 0 => 0
    | n + 1 => σ n + 1
  invFun
    | 0 => 0
    | n + 1 => σ.symm n + 1
  left_inv n := by cases n <;> simp
  right_inv n := by cases n <;> simp

theorem exists_perm_getElem? {α : Type} {l l' : List α} (h : l.Perm l') :
    ∃ σ : Equiv.Perm Nat, ∀ n : Nat, l'[σ n]? = l[n]? := by
  -- each way to make a permutation moves the positions in its own way
  induction h with
  | nil => exact ⟨Equiv.refl Nat, fun _ => rfl⟩
  | cons x _ ih =>
    rcases ih with ⟨σ, hσ⟩
    refine ⟨succPerm σ, fun n => ?_⟩
    cases n with
    | zero => rfl
    | succ n => exact hσ n
  | swap x y l =>
    refine ⟨Equiv.swap 0 1, fun n => ?_⟩
    match n with
    | 0 => rfl
    | 1 => rfl
    | n + 2 => rw [Equiv.swap_apply_of_ne_of_ne (by omega) (by omega)]; rfl
  | trans _ _ ih ih' =>
    rcases ih with ⟨σ, hσ⟩
    rcases ih' with ⟨τ, hτ⟩
    exact ⟨σ.trans τ, fun n => (hτ (σ n)).trans (hσ n)⟩

namespace Graph

theorem exists_renumbered_ofNodes {ns ns' : List Node} (h : ns.Perm ns')
    (hnodup : (ns.map Node.id).Nodup) : ∃ σ, Renumbered σ (ofNodes ns) (ofNodes ns') := by
  rcases exists_perm_getElem? h with ⟨σ, hσ⟩
  have hnode : ∀ n, (ofNodes ns').node? (σ n) = (ofNodes ns).node? n := by
    intro n
    rw [node?_ofNodes, node?_ofNodes, hσ]
  refine ⟨σ, ?_, hnode, fun id => Option.ext fun n => ?_, ?_⟩
  · rw [← Array.length_toList, ← Array.length_toList, nodes_ofNodes, nodes_ofNodes, h.length_eq]
  · -- identifiers are unique on both sides, so they find the node that moved
    have hids := (sound_ofNodes hnodup).ids
    have hids' := (sound_ofNodes ((h.map Node.id).nodup_iff.mp hnodup)).ids
    rw [hids', Option.map_eq_some_iff, ← σ.apply_symm_apply n, hnode, ← hids]
    constructor
    · intro hn
      exact ⟨σ.symm n, hn, rfl⟩
    · intro hin
      rcases hin with ⟨m, hm, heq⟩
      rw [← σ.injective heq, hm]
  · rw [edges_ofNodes, edges_ofNodes]
    exact .nil

theorem Renumbered.withEdges {σ : Equiv.Perm Nat} {g g' : Graph} (h : Renumbered σ g g')
    {es es' : List Edge} (hes : es'.Perm (es.map (Edge.renumber σ))) :
    Renumbered σ (g.withEdges es) (g'.withEdges es') where
  size := by rw [nodes_withEdges, nodes_withEdges, h.size]
  node n := by rw [node?, node?, nodes_withEdges, nodes_withEdges, ← node?, ← node?, h.node]
  byId id := by rw [byId?, byId?, ids_withEdges, ids_withEdges, ← byId?, ← byId?, h.byId]
  edges := by
    rw [edges_withEdges, edges_withEdges, List.map_append]
    exact h.edges.append hes

theorem Renumbered.lists {σ : Equiv.Perm Nat} {g g' : Graph} (h : Renumbered σ g g')
    {r : EdgeRecord} {e : Edge} (hr : r.Lists g e) : r.Lists g' (e.renumber σ) where
  source := by rw [h.byId, hr.source]; rfl
  target := by rw [h.byId, hr.target]; rfl
  label := hr.label

end Graph

/-- A snapshot with its records in another order loads as well, and its graph is the same but for
the numbers of the nodes and the order of the edges. -/
theorem Snapshot.exists_renumbered {s s' : Snapshot} {g : Graph} (hnodes : s.nodes.Perm s'.nodes)
    (hedges : s.edges.Perm s'.edges) (h : s.toGraph = .ok g) :
    ∃ σ g', s'.toGraph = .ok g' ∧ Graph.Renumbered σ g g' := by
  rcases toGraph_ok.mp h with ⟨ns, es, hns, hnodup, hes, hsound, rfl⟩
  -- the nodes and the edges that the records stand for are reordered together with them
  rcases List.perm_comp_forall₂ hnodes.symm hns with ⟨ns', hns', hnsperm⟩
  rcases List.perm_comp_forall₂ hedges.symm hes with ⟨es', hes', hesperm⟩
  rcases Graph.exists_renumbered_ofNodes hnsperm.symm hnodup with ⟨σ, hσ⟩
  have hrenumbered := hσ.withEdges (hesperm.map (Edge.renumber σ))
  refine ⟨σ, _, toGraph_ok.mpr ⟨ns', _, hns', ?_, ?_, hrenumbered.sound hsound, rfl⟩, hrenumbered⟩
  · exact (hnsperm.map Node.id).nodup_iff.mpr hnodup
  · rw [List.forall₂_map_right_iff]
    exact hes'.imp fun r e hr => hσ.lists hr

end UnitGraph
