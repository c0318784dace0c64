import UnitGraph.Proofs.Graph.Calls

/-!
# Every built graph is sound

Each change that a call can make keeps a builder sound, so a run of any calls, refused or not, ends
in a sound builder.  What the graph of that builder says about containment is the main result.
-/

namespace UnitGraph

structure Builder.Sound (b : Builder) : Prop where
  graph : b.graph.Sound
  parents : ∀ c, b.parents[c]? = b.graph.parent? c

def Graph.ofCalls (calls : List Builder.Call) : Graph :=
  (Builder.empty.run calls).2.graph

/-! ## Edges, one more -/

namespace Graph

variable {g : Graph} {n c p : Nat}

theorem parent?_withEdge (g : Graph) (e : Edge) (n : Nat) :
    (g.withEdge e).parent? n =
      if e.target = n && e.label.isChild then some e.source else g.parent? n := by
  -- the search starts from the end, where the new edge is
  rw [parent?, parent?, withEdge, Array.toList_push, List.reverse_append, List.reverse_singleton,
    List.singleton_append, List.find?_cons]
  cases he : decide (e.target = n) && e.label.isChild with
  | true => rfl
  | false => rfl

theorem parent?_withDependence (g : Graph) (s t : Nat) (d : Dependence) (n : Nat) :
    (g.withEdge ⟨s, t, .dependence d⟩).parent? n = g.parent? n := by
  rw [parent?_withEdge, EdgeLabel.isChild, Bool.and_false, if_neg Bool.false_ne_true]

theorem parent?_withChild (g : Graph) (p c n : Nat) :
    (g.withEdge ⟨p, c, .child⟩).parent? n = if n = c then some p else g.parent? n := by
  rw [parent?_withEdge, EdgeLabel.isChild, Bool.and_true]
  by_cases hn : n = c
  · rw [if_pos hn, hn, if_pos (decide_eq_true rfl)]
  · rw [if_neg hn, if_neg (fun h => hn (of_decide_eq_true h).symm)]

theorem countP_eq_zero_of_parent?_none (h : g.parent? c = none) :
    g.edges.toList.countP (fun e => e.target = c && e.label.isChild) = 0 := by
  rw [parent?, Option.map_eq_none_iff, List.find?_eq_none] at h
  rw [List.countP_eq_zero]
  exact fun e he => h e (List.mem_reverse.mpr he)

theorem countP_withEdge (g : Graph) (e : Edge) (q : Edge → Bool) :
    (g.withEdge e).edges.toList.countP q = g.edges.toList.countP q + if q e then 1 else 0 := by
  rw [withEdge, Array.toList_push, List.countP_append, List.countP_singleton]

/-! ## Soundness, change by change -/

theorem sound_empty : Graph.empty.Sound where
  ids id n := by
    rw [byId?, node?, empty]
    simp only [Std.ExtHashMap.getElem?_empty, List.getElem?_toArray, List.getElem?_nil,
      reduceCtorEq, false_and, exists_false]
  single c := by rw [empty]; exact Nat.zero_le 1
  forest := Forest.empty
  units s t d h := by
    rw [empty] at h
    exact absurd h (Array.not_mem_empty _)

theorem Sound.withDependence (h : g.Sound) {s t : Nat} (d : Dependence) (hs : g.isKind s .unit)
    (ht : g.isKind t .unit) : (g.withEdge ⟨s, t, .dependence d⟩).Sound where
  ids := h.ids
  single c := by
    -- a dependence attaches nothing, and gives no node a parent
    rw [countP_withEdge, EdgeLabel.isChild, Bool.and_false, if_neg Bool.false_ne_true]
    exact h.single c
  forest := by
    rw [show (g.withEdge ⟨s, t, .dependence d⟩).parent? = g.parent? from
      funext fun n => parent?_withDependence g s t d n]
    exact h.forest
  units s' t' d' he := by
    rw [withEdge, Array.mem_push] at he
    rcases he with he | he
    · exact h.units s' t' d' he
    · cases he
      exact ⟨hs, ht⟩

theorem Sound.withChild (h : g.Sound) (hp : p < g.nodes.size) (hc : c < g.nodes.size)
    (hroot : g.parent? c = none) (hnot : ¬ Climbs g.parent? p c) :
    (g.withEdge ⟨p, c, .child⟩).Sound where
  ids := h.ids
  single n := by
    rw [countP_withEdge, EdgeLabel.isChild, Bool.and_true]
    by_cases hn : c = n
    · -- the child had no containment edge so far
      refine Nat.le_of_eq ?_
      rw [← hn, countP_eq_zero_of_parent?_none hroot, if_pos (decide_eq_true rfl)]
    · rw [if_neg (fun h => hn (of_decide_eq_true h))]
      exact h.single n
  forest := by
    rw [show (g.withEdge ⟨p, c, .child⟩).parent? = fun n => if n = c then some p else g.parent? n
      from funext fun n => parent?_withChild g p c n]
    exact h.forest.attach hp hc hnot
  units s t d he := by
    rw [withEdge, Array.mem_push] at he
    rcases he with he | he
    · exact h.units s t d he
    · cases he

theorem node?_withNode (g : Graph) (node : Node) (n : Nat) :
    (g.withNode node).node? n = if n = g.nodes.size then some node else g.node? n :=
  Array.getElem?_push

theorem isKind_withNode (node : Node) {kind : NodeKind} (h : g.isKind n kind) :
    (g.withNode node).isKind n kind := by
  rcases isKind_iff.mp h with ⟨found, hn, hk⟩
  have hlt := lt_of_node? hn
  exact isKind_iff.mpr ⟨found, by rw [node?_withNode, if_neg (by omega), hn], hk⟩

theorem Sound.withNode (h : g.Sound) (node : Node) (fresh : node.id ∉ g.ids) :
    (g.withNode node).Sound where
  ids id n := by
    have hold : g.byId? node.id = none := Std.ExtHashMap.getElem?_eq_none fresh
    have hnew : (g.withNode node).byId? id =
        if node.id == id then some g.nodes.size else g.byId? id :=
      Std.ExtHashMap.getElem?_insert
    rw [hnew, node?_withNode]
    by_cases hid : node.id = id
    · -- no older node has the identifier
      rw [if_pos (beq_iff_eq.mpr hid)]
      by_cases hn : n = g.nodes.size
      · rw [if_pos hn, hn]
        exact ⟨fun _ => ⟨node, rfl, hid⟩, fun _ => rfl⟩
      · -- an older node with the identifier would have kept the new one out
        rw [if_neg hn, Option.some.injEq]
        refine ⟨fun h' => absurd h'.symm hn, fun h' => ?_⟩
        rw [← h.ids, ← hid, hold] at h'
        exact absurd h' (Option.some_ne_none n).symm
    · -- the identifier is another one, and the new node does not have it
      rw [if_neg (fun h' => hid (beq_iff_eq.mp h')), h.ids]
      by_cases hn : n = g.nodes.size
      · rw [if_pos hn, hn, node?_of_ge (Nat.le_refl _)]
        refine ⟨fun ⟨_, h', _⟩ => absurd h' (Option.some_ne_none _).symm, fun ⟨_, h', hid'⟩ => ?_⟩
        rw [← Option.some.inj h'] at hid'
        exact absurd hid' hid
      · rw [if_neg hn]
  single := h.single
  forest := h.forest.mono (by rw [Graph.withNode, Array.size_push]; omega)
  units s t d he := by
    rcases h.units s t d he with ⟨hs, ht⟩
    exact ⟨isKind_withNode node hs, isKind_withNode node ht⟩

end Graph

/-! ## Soundness, call by call -/

namespace Builder

variable {b b' : Builder} {n p c : Nat}

theorem Sound.lineage (h : b.Sound) (n : Nat) :
    b.lineage n = climb b.graph.parent? b.graph.nodes.size n := by
  rw [Builder.lineage, show (fun x => b.parents[x]?) = b.graph.parent? from funext h.parents]

theorem sound_empty : Builder.empty.Sound :=
  ⟨Graph.sound_empty, fun _ => Std.ExtHashMap.getElem?_empty⟩

theorem Sound.step (h : b.Sound) (hs : Step b b') : b'.Sound := by
  cases hs with
  | node node fresh => exact ⟨h.graph.withNode node fresh, h.parents⟩
  | child p c hp hc hroot apart =>
    -- the walk up the recorded parents is one up the graph, and in a forest it misses nothing
    rw [h.parents] at hroot
    rw [h.lineage, h.graph.forest.mem_climb hp] at apart
    refine ⟨h.graph.withChild hp hc hroot apart, fun n => ?_⟩
    have hnew : (b.attach p c).parents[n]? = if c == n then some p else b.parents[n]? :=
      Std.ExtHashMap.getElem?_insert
    rw [hnew, h.parents]
    refine Eq.trans ?_ (Graph.parent?_withChild b.graph p c n).symm
    by_cases hn : n = c
    · rw [if_pos hn, if_pos (beq_iff_eq.mpr hn.symm)]
    · rw [if_neg hn, if_neg (fun h' => hn (beq_iff_eq.mp h').symm)]
  | dependence s t d hs ht =>
    refine ⟨h.graph.withDependence d hs ht, fun n => ?_⟩
    exact (h.parents n).trans (Graph.parent?_withDependence b.graph s t d n).symm

theorem Sound.call (h : b.Sound) (c : Call) : (b.call c).2.Sound := by
  rcases call_snd b c with hc | hc
  · rw [hc]
    exact h
  · exact h.step hc

theorem Sound.run (h : b.Sound) (calls : List Call) : (b.run calls).2.Sound := by
  induction calls generalizing b with
  | nil => exact h
  | cons c calls ih => exact ih (h.call c)

theorem sound_run (calls : List Call) : (Builder.empty.run calls).2.Sound :=
  sound_empty.run calls

end Builder

theorem Graph.sound_ofCalls (calls : List Builder.Call) : (Graph.ofCalls calls).Sound :=
  (Builder.sound_run calls).graph

/-! ## What any calls build -/

/-- Identifiers and numbers, recorded parents and containment edges, and the ends of dependences
agree after any calls, refused ones included.  So the graph that is built lists every node below
its parent, once and nowhere else, and every node has exactly one root. -/
theorem Builder.run_containment (calls : List Call) :
    let b := (Builder.empty.run calls).2
    let g := b.graph
    (∀ id n, g.byId? id = some n ↔ ∃ node, g.node? n = some node ∧ node.id = id) ∧
    (∀ p c, b.parents[c]? = some p ↔ ⟨p, c, .child⟩ ∈ g.edges) ∧
    (∀ c, g.edges.toList.countP (fun e => e.target = c && e.label.isChild) ≤ 1) ∧
    (∀ limit n, (climb (b.parents[·]?) limit n).Nodup) ∧
    (∀ s t d, ⟨s, t, .dependence d⟩ ∈ g.edges → g.isKind s .unit ∧ g.isKind t .unit) ∧
    (∀ p c, g.parent? c = some p ↔ c ∈ g.children p) ∧
    (∀ p c, (g.children p).count c = if g.parent? c = some p then 1 else 0) ∧
    (∀ n, n ∈ g.roots ↔ n < g.nodes.size ∧ ∀ p, n ∉ g.children p) ∧
    (∀ n < g.nodes.size, ∃! r, r ∈ g.roots ∧ Climbs g.parent? n r) := by
  intro b g
  have hb : b.Sound := sound_run calls
  have hg : g.Sound := hb.graph
  have hparents : (fun x => b.parents[x]?) = g.parent? := funext hb.parents
  refine ⟨hg.ids, fun p c => ?_, hg.single, fun limit n => ?_, hg.units,
    fun p c => hg.mem_children_iff.symm, hg.count_children, fun n => hg.mem_roots_iff,
    fun n hn => hg.existsUnique_root hn⟩
  · rw [hb.parents]
    exact hg.parent?_eq_some
  · -- the recorded parents are those of the graph, which form a forest
    rw [hparents]
    exact hg.forest.nodup_climb limit n

end UnitGraph
