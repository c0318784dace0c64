import Mathlib.Data.List.Nodup
import UnitGraph.Graph.Basic
import UnitGraph.Proofs.Lineage

/-!
# Containment in a sound graph

A graph is sound when identifiers and numbers stand for each other, no node is attached twice, the
parents form a forest, and dependences connect units.  Parents, children and roots are read off the
edges in different ways; on a sound graph they agree.
-/

namespace UnitGraph

/-- What the analyses rely on and never check. -/
structure Graph.Sound (g : Graph) : Prop where
  ids : ∀ id n, g.byId? id = some n ↔ ∃ node, g.node? n = some node ∧ node.id = id
  /-- No node is attached twice. -/
  single : ∀ c, g.edges.toList.countP (fun e => e.target = c && e.label.isChild) ≤ 1
  forest : Forest g.nodes.size g.parent?
  units : ∀ s t d, ⟨s, t, .dependence d⟩ ∈ g.edges → g.isKind s .unit ∧ g.isKind t .unit

/-- Children listed by parent: each below its own parent, and once. -/
structure Siblings (parent : Nat → Option Nat) (children : Nat → List Nat) : Prop where
  mem : ∀ p c, c ∈ children p ↔ parent c = some p
  nodup : ∀ p, (children p).Nodup

/-! ## Recursion over the children -/

section Recursion

variable {size : Nat} {parent : Nat → Option Nat} {children : Nat → List Nat}

theorem Forest.wellFounded_children (hf : Forest size parent) (hs : Siblings parent children) :
    WellFounded fun c p => c ∈ children p :=
  Subrelation.wf (fun {c p} hc => hf.room_lt ((hs.mem p c).mp hc))
    (measure (Forest.room size parent)).wf

/-- A rule that makes the value of a node from those of its children has exactly one solution. -/
theorem Forest.existsUnique_recursion {α : Type} (hf : Forest size parent)
    (hs : Siblings parent children) (rule : Nat → List α → α) :
    ∃! w : Nat → α, ∀ n, w n = rule n ((children n).map w) := by
  have hwf := hf.wellFounded_children hs
  refine ⟨hwf.fix fun n below => rule n ((children n).attach.map fun c => below c.1 c.2),
    fun n => ?_, fun w hw => ?_⟩
  · rw [hwf.fix_eq, List.attach_map_val]
  · funext n
    induction n using hwf.induction with
    | h n ih =>
      rw [hw n, hwf.fix_eq, List.attach_map_val, List.map_congr_left ih]

end Recursion

private theorem eq_of_countP_le_one {α : Type} {q : α → Bool} {l : List α} {a b : α}
    (h : l.countP q ≤ 1) (ha : a ∈ l) (hqa : q a) (hb : b ∈ l) (hqb : q b) : a = b := by
  rw [List.countP_eq_length_filter] at h
  have ha' : a ∈ l.filter q := List.mem_filter.mpr ⟨ha, hqa⟩
  have hb' : b ∈ l.filter q := List.mem_filter.mpr ⟨hb, hqb⟩
  match hf : l.filter q with
  | [] => rw [hf] at ha'; exact absurd ha' List.not_mem_nil
  | [x] =>
    rw [hf, List.mem_singleton] at ha' hb'
    rw [ha', hb']
  | x :: y :: rest =>
    rw [hf, List.length_cons, List.length_cons] at h
    omega

theorem EdgeLabel.isChild_iff (l : EdgeLabel) : l.isChild ↔ l = .child := by
  cases l with
  | child => exact ⟨fun _ => rfl, fun _ => rfl⟩
  | dependence d =>
    exact ⟨fun h => absurd h Bool.false_ne_true, fun h => absurd h EdgeLabel.noConfusion⟩

namespace Graph

variable {g : Graph} {n m c p r : Nat}

/-! ## Nodes by number -/

theorem node?_isSome : (g.node? n).isSome ↔ n < g.nodes.size := by
  rw [node?, isSome_getElem?]

theorem exists_node? (h : n < g.nodes.size) : ∃ node, g.node? n = some node :=
  Option.isSome_iff_exists.mp (node?_isSome.mpr h)

theorem lt_of_node? {node : Node} (h : g.node? n = some node) : n < g.nodes.size := by
  rw [← node?_isSome, h, Option.isSome_some]

theorem node?_of_ge (h : g.nodes.size ≤ n) : g.node? n = none := by
  rw [node?, Array.getElem?_eq_none h]

theorem require_of_some {node : Node} (h : g.node? n = some node) : g.require n = .ok node := by
  rw [require, h]

theorem require_of_none (h : g.node? n = none) : g.require n = .error (.nodeNotFound n) := by
  rw [require, h]

theorem isKind_iff {kind : NodeKind} :
    g.isKind n kind ↔ ∃ node, g.node? n = some node ∧ node.kind = kind := by
  rw [isKind, kind?, decide_eq_true_iff, Option.map_eq_some_iff]

theorem isKind_unique {kind kind' : NodeKind} (h : g.isKind n kind) (h' : g.isKind n kind') :
    kind = kind' := by
  rcases isKind_iff.mp h with ⟨node, hn, rfl⟩
  rcases isKind_iff.mp h' with ⟨node', hn', rfl⟩
  rw [Option.some.inj (hn.symm.trans hn')]

theorem lt_of_isKind {kind : NodeKind} (h : g.isKind n kind) : n < g.nodes.size := by
  rcases isKind_iff.mp h with ⟨node, hn, _⟩
  exact lt_of_node? hn

theorem mem_indices : n ∈ g.indices ↔ n < g.nodes.size := List.mem_range

theorem mem_ofKind {kind : NodeKind} : n ∈ g.ofKind kind ↔ g.isKind n kind := by
  rw [ofKind, List.mem_filter, mem_indices]
  exact ⟨And.right, fun h => ⟨lt_of_isKind h, h⟩⟩

/-! ## Parents and children -/

theorem mem_children : c ∈ g.children p ↔ ⟨p, c, .child⟩ ∈ g.edges := by
  rw [children, List.mem_map]
  constructor
  · intro hin
    rcases hin with ⟨⟨s, t, l⟩, he, rfl⟩
    rw [List.mem_filter, Bool.and_eq_true, decide_eq_true_iff, EdgeLabel.isChild_iff] at he
    rcases he with ⟨he, rfl, rfl⟩
    exact Array.mem_toList_iff.mp he
  · intro he
    refine ⟨_, List.mem_filter.mpr ⟨Array.mem_toList_iff.mpr he, ?_⟩, rfl⟩
    rw [Bool.and_eq_true, decide_eq_true_iff]
    exact ⟨rfl, rfl⟩

theorem mem_childrenOfKind {kind : NodeKind} :
    c ∈ g.childrenOfKind p kind ↔ c ∈ g.children p ∧ g.isKind c kind :=
  List.mem_filter

theorem parent?_eq_some_of_single
    (h : g.edges.toList.countP (fun e => e.target = c && e.label.isChild) ≤ 1) :
    g.parent? c = some p ↔ ⟨p, c, .child⟩ ∈ g.edges := by
  rw [parent?, Option.map_eq_some_iff]
  constructor
  · intro hin
    rcases hin with ⟨⟨s, t, l⟩, he, rfl⟩
    have hq := List.find?_some he
    have hmem := List.mem_of_find?_eq_some he
    rw [Bool.and_eq_true, decide_eq_true_iff, EdgeLabel.isChild_iff] at hq
    rcases hq with ⟨rfl, rfl⟩
    exact Array.mem_toList_iff.mp (List.mem_reverse.mp hmem)
  · intro he
    have hmem := Array.mem_toList_iff.mpr he
    have hq : (decide (c = c) && EdgeLabel.child.isChild) = true := by
      rw [decide_eq_true rfl, EdgeLabel.isChild, Bool.and_self]
    cases hf : g.edges.toList.reverse.find? fun e => e.target = c && e.label.isChild with
    | none => exact absurd hq (List.find?_eq_none.mp hf _ (List.mem_reverse.mpr hmem))
    | some e =>
      -- the last edge found is the only one
      have he' := List.mem_reverse.mp (List.mem_of_find?_eq_some hf)
      have hq' := List.find?_some hf
      refine ⟨e, rfl, ?_⟩
      rw [eq_of_countP_le_one h he' hq' hmem hq]

theorem Sound.parent?_eq_some (h : g.Sound) : g.parent? c = some p ↔ ⟨p, c, .child⟩ ∈ g.edges :=
  parent?_eq_some_of_single (h.single c)

theorem Sound.mem_children_iff (h : g.Sound) : c ∈ g.children p ↔ g.parent? c = some p :=
  mem_children.trans h.parent?_eq_some.symm

theorem Sound.nodup_children (h : g.Sound) (p : Nat) : (g.children p).Nodup := by
  rw [List.nodup_iff_count_le_one]
  intro c
  -- an entry `c` in the list comes from a containment edge to `c`
  refine Nat.le_trans ?_ (h.single c)
  rw [children, List.count_eq_countP, List.countP_map, List.countP_filter]
  refine List.countP_mono_left fun e _ he => ?_
  simp only [Function.comp_apply, Bool.and_eq_true, beq_iff_eq, decide_eq_true_iff] at he ⊢
  exact ⟨he.1, he.2.2⟩

theorem Sound.children_of_ge (h : g.Sound) (hp : g.nodes.size ≤ p) : g.children p = [] := by
  rw [List.eq_nil_iff_forall_not_mem]
  intro c hc
  have hlt := (h.forest.below c p (h.mem_children_iff.mp hc)).2
  omega

theorem Sound.siblings (h : g.Sound) : Siblings g.parent? g.children :=
  ⟨fun _ _ => h.mem_children_iff, h.nodup_children⟩

theorem Sound.mem_ancestors (h : g.Sound) :
    m ∈ g.ancestors n ↔ ∃ p, g.parent? n = some p ∧ Climbs g.parent? p m := by
  rw [ancestors]
  cases hp : g.parent? n with
  | none =>
    refine ⟨fun hm => absurd hm List.not_mem_nil, ?_⟩
    intro hin
    rcases hin with ⟨p, hp', _⟩
    exact absurd hp'.symm (Option.some_ne_none p)
  | some p =>
    rw [h.forest.mem_climb (h.forest.below n p hp).2]
    constructor
    · intro hc
      exact ⟨p, rfl, hc⟩
    · intro hin
      rcases hin with ⟨q, hq, hc⟩
      rw [Option.some.inj hq]
      exact hc

theorem Sound.climbs_iff (h : g.Sound) : Climbs g.parent? n m ↔ n = m ∨ m ∈ g.ancestors n := by
  rw [h.mem_ancestors]
  exact Relation.ReflTransGen.cases_head_iff

theorem Sound.enclosingLoop?_of_parent (hg : g.Sound) {n p : Nat} (hp : g.parent? n = some p) :
    g.enclosingLoop? n = if g.isKind p .loop then some p else g.enclosingLoop? p := by
  have hanc : g.ancestors n = p :: g.ancestors p := by
    rw [ancestors, hp, ancestors]
    cases hq : g.parent? p with
    | none =>
      show climb g.parent? g.nodes.size p = [p]
      have hlt := (hg.forest.below n p hp).2
      rw [show g.nodes.size = g.nodes.size - 1 + 1 by omega, climb_succ_none _ hq]
    | some q => exact hg.forest.climb_eq_cons hq
  rw [enclosingLoop?, hanc, List.find?_cons]
  cases g.isKind p .loop <;> rfl

theorem Sound.count_children (h : g.Sound) (p c : Nat) :
    (g.children p).count c = if g.parent? c = some p then 1 else 0 := by
  by_cases hp : g.parent? c = some p
  · rw [if_pos hp, List.count_eq_one_of_mem (h.nodup_children p) (h.mem_children_iff.mpr hp)]
  · rw [if_neg hp, List.count_eq_zero]
    exact fun hc => hp (h.mem_children_iff.mp hc)

/-! ## The order of the children

A node meets the edges that leave it from the latest one on.  Its children stand in the order of
their edges. -/

def leaving (g : Graph) (n : Nat) : List (Edge × Nat) :=
  (g.edges.toList.zipIdx.filter fun e => e.1.source = n).reverse

def childEdges (g : Graph) (n : Nat) : List (Edge × Nat) :=
  g.edges.toList.zipIdx.filter fun e => e.1.label.isChild && e.1.source = n

theorem pairwise_childEdges (g : Graph) (n : Nat) :
    (g.childEdges n).Pairwise fun a b => a.2 < b.2 := by
  refine List.Pairwise.filter _ ?_
  have hnumbers : (g.edges.toList.zipIdx.map Prod.snd).Pairwise (· < ·) := by
    rw [List.zipIdx_map_snd]
    exact List.pairwise_lt_range'
  exact List.pairwise_map.mp hnumbers

theorem mergeSort_leaving (g : Graph) (n : Nat) :
    ((g.leaving n).filter fun e => e.1.label.isChild).mergeSort (fun a b => a.2 ≤ b.2) =
      g.childEdges n := by
  have hperm : (((g.leaving n).filter fun e => e.1.label.isChild).mergeSort
      (fun a b => a.2 ≤ b.2)).Perm (g.childEdges n) := by
    refine (List.mergeSort_perm _ _).trans ?_
    rw [leaving, List.filter_reverse, List.filter_filter]
    exact List.reverse_perm _
  have hsorted : (((g.leaving n).filter fun e => e.1.label.isChild).mergeSort
      (fun a b => a.2 ≤ b.2)).Pairwise fun a b => a.2 ≤ b.2 := by
    refine (List.pairwise_mergeSort (fun a b c hab hbc => ?_) (fun a b => ?_) _).imp
      of_decide_eq_true
    · exact decide_eq_true (Nat.le_trans (of_decide_eq_true hab) (of_decide_eq_true hbc))
    · rw [Bool.or_eq_true, decide_eq_true_iff, decide_eq_true_iff]
      exact Nat.le_total _ _
  -- two entries of one number are one edge, so there is only one way to sort them
  refine List.Perm.eq_of_pairwise (fun a b ha hb hab hba => ?_) hsorted
    ((g.pairwise_childEdges n).imp Nat.le_of_lt) hperm
  have ha' := List.mem_zipIdx_iff_getElem?.mp (List.mem_filter.mp (hperm.mem_iff.mp ha)).1
  have hb' := List.mem_zipIdx_iff_getElem?.mp (List.mem_filter.mp hb).1
  have hnumber : a.2 = b.2 := Nat.le_antisymm hab hba
  rw [hnumber, hb'] at ha'
  exact Prod.ext (Option.some.inj ha').symm hnumber

/-- Enumerated from the latest one on and sorted by their numbers, the child edges of a node lead to
its children as they are listed. -/
theorem children_eq_mergeSort (g : Graph) (n : Nat) :
    g.children n =
      (((g.leaving n).filter fun e => e.1.label.isChild).mergeSort fun a b => a.2 ≤ b.2).map
        fun e => e.1.target := by
  have hedges : g.edges.toList = g.edges.toList.zipIdx.map Prod.fst :=
    (List.zipIdx_map_fst 0 g.edges.toList).symm
  rw [mergeSort_leaving, children, hedges, List.filter_map, List.map_map, childEdges]
  simp only [Function.comp_def, Bool.and_comm]

/-! ## Roots -/

theorem mem_roots : n ∈ g.roots ↔ n < g.nodes.size ∧ g.parent? n = none := by
  rw [roots, List.mem_filter, mem_indices, Option.isNone_iff_eq_none]

theorem nodup_roots (g : Graph) : g.roots.Nodup :=
  List.nodup_range.filter _

/-- A root is a node that no other node lists as a child. -/
theorem Sound.mem_roots_iff (h : g.Sound) :
    n ∈ g.roots ↔ n < g.nodes.size ∧ ∀ p, n ∉ g.children p := by
  rw [mem_roots]
  refine and_congr_right fun _ => ⟨fun hn p hc => ?_, fun hn => ?_⟩
  · rw [h.mem_children_iff, hn] at hc
    exact absurd hc (Option.some_ne_none p).symm
  · cases hp : g.parent? n with
    | none => rfl
    | some p => exact absurd (h.mem_children_iff.mpr hp) (hn p)

theorem Sound.existsUnique_root (h : g.Sound) (hn : n < g.nodes.size) :
    ∃! r, r ∈ g.roots ∧ Climbs g.parent? n r := by
  rcases h.forest.existsUnique_root n with ⟨r, ⟨hr, hc⟩, huniq⟩
  refine ⟨r, ⟨mem_roots.mpr ⟨h.forest.lt_of_climbs hc hn, hr⟩, hc⟩, fun s ⟨hs, hcs⟩ => ?_⟩
  exact huniq s ⟨(mem_roots.mp hs).2, hcs⟩

/-! ## The order of the edges -/

section Reordered

variable {es : Array Edge}

def reordered (g : Graph) (es : Array Edge) : Graph :=
  { g with edges := es }

theorem parent?_reordered (h : g.Sound) (hes : es.Perm g.edges) :
    (g.reordered es).parent? = g.parent? := by
  funext c
  refine Option.ext fun p => ?_
  rw [h.parent?_eq_some, ← hes.mem_iff]
  refine parent?_eq_some_of_single ?_
  rw [show (g.reordered es).edges = es from rfl, hes.toList.countP_eq]
  exact h.single c

theorem children_reordered (hes : es.Perm g.edges) (n : Nat) :
    ((g.reordered es).children n).Perm (g.children n) :=
  (hes.toList.filter _).map _

theorem ancestors_reordered (h : g.Sound) (hes : es.Perm g.edges) (n : Nat) :
    (g.reordered es).ancestors n = g.ancestors n := by
  rw [ancestors, ancestors, parent?_reordered h hes]
  rfl

theorem Sound.reordered (h : g.Sound) (hes : es.Perm g.edges) : (g.reordered es).Sound where
  ids := h.ids
  single c := by
    rw [show (g.reordered es).edges = es from rfl, hes.toList.countP_eq]
    exact h.single c
  forest := by
    rw [parent?_reordered h hes]
    exact h.forest
  units s t d he := h.units s t d (hes.mem_iff.mp he)

end Reordered

end Graph

end UnitGraph
