import UnitGraph.Proofs.Graph.Containment

/-!
# Depth-first order

The depth-first order of a forest is defined by its derivations: a node, then the order below its
children, then the order of the trees after it.  In a forest every list of nodes has exactly one
such order.  It holds what climbs to one of the nodes, and nothing twice when the nodes lie apart.
-/

namespace UnitGraph

inductive Preorder (children : Nat → List Nat) : List Nat → List Nat → Prop
  | nil : Preorder children [] []
  | cons {n : Nat} {ns below rest : List Nat} :
      Preorder children (children n) below → Preorder children ns rest →
      Preorder children (n :: ns) (n :: (below ++ rest))

namespace Preorder

variable {children : Nat → List Nat} {ns ms l k below : List Nat} {n m : Nat}

theorem unique (h : Preorder children ns l) (h' : Preorder children ns k) : l = k := by
  induction h generalizing k with
  | nil =>
    cases h'
    rfl
  | cons _ _ ihb ihr =>
    cases h' with
    | cons hb hr => rw [ihb hb, ihr hr]

theorem append (h : Preorder children ns l) (h' : Preorder children ms k) :
    Preorder children (ns ++ ms) (l ++ k) := by
  induction h with
  | nil => exact h'
  | cons hb _ _ ihr =>
    rw [List.cons_append, List.cons_append, List.append_assoc]
    exact .cons hb ihr

theorem single (h : Preorder children (children n) below) :
    Preorder children [n] (n :: below) := by
  have h' := Preorder.cons h .nil
  rwa [List.append_nil] at h'

theorem exists_of_single (h : Preorder children [n] l) :
    ∃ below, Preorder children (children n) below ∧ l = n :: below := by
  cases h with
  | cons hb hr =>
    cases hr
    exact ⟨_, hb, by rw [List.append_nil]⟩

theorem flatMap {f : Nat → List Nat} (h : ∀ n ∈ ns, Preorder children [n] (f n)) :
    Preorder children ns (ns.flatMap f) := by
  induction ns with
  | nil => exact .nil
  | cons n ns ih =>
    rw [List.flatMap_cons]
    exact (h n List.mem_cons_self).append (ih fun m hm => h m (List.mem_cons_of_mem n hm))

theorem exists_of_forall_single (h : ∀ n ∈ ns, ∃ l, Preorder children [n] l) :
    ∃ l, Preorder children ns l := by
  induction ns with
  | nil => exact ⟨[], .nil⟩
  | cons n ns ih =>
    rcases h n List.mem_cons_self with ⟨l, hl⟩
    rcases ih fun m hm => h m (List.mem_cons_of_mem n hm) with ⟨l', hl'⟩
    exact ⟨l ++ l', hl.append hl'⟩

theorem exists_of_wellFounded (hwf : WellFounded fun c p => c ∈ children p) (ns : List Nat) :
    ∃ l, Preorder children ns l := by
  have hsingle : ∀ n, ∃ l, Preorder children [n] l := by
    intro n
    -- induction along the children: each of them has an order of its own
    induction n using hwf.induction with
    | h n ih =>
      rcases exists_of_forall_single ih with ⟨below, hbelow⟩
      exact ⟨n :: below, hbelow.single⟩
  exact exists_of_forall_single fun n _ => hsingle n

/-! ## Members -/

section Siblings

variable {parent : Nat → Option Nat} {size : Nat}

/-- The order below some nodes holds what climbs to one of them. -/
theorem mem_iff (h : Preorder children ns l) (hs : Siblings parent children) :
    m ∈ l ↔ ∃ n ∈ ns, Climbs parent m n := by
  -- along the order: the first tree is its root and what lies below its children
  induction h with
  | nil =>
    exact ⟨fun hm => absurd hm List.not_mem_nil, fun ⟨_, hn, _⟩ => absurd hn List.not_mem_nil⟩
  | @cons n ns below rest _ _ ihb ihr =>
    rw [List.mem_cons, List.mem_append, ihb, ihr]
    constructor
    · intro hin
      rcases hin with rfl | ⟨c, hc, hm⟩ | ⟨a, ha, hm⟩
      · -- `m` is the first node, or lies below one of its children, or below a later node
        exact ⟨m, List.mem_cons_self, .refl⟩
      · exact ⟨n, List.mem_cons_self, .tail hm ((hs.mem n c).mp hc)⟩
      · exact ⟨a, List.mem_cons_of_mem n ha, hm⟩
    · intro hin
      rcases hin with ⟨a, ha, hm⟩
      rcases List.mem_cons.mp ha with rfl | ha
      · -- a climb to the root ends there at once, or comes through one of its children
        rcases hm.cases_tail with hm | ⟨c, hm, hc⟩
        · exact Or.inl hm.symm
        · exact Or.inr (Or.inl ⟨c, (hs.mem a c).mpr hc, hm⟩)
      · exact Or.inr (Or.inr ⟨a, ha, hm⟩)

/-- A node below both `n` and a node apart from it would put one of the two below the other. -/
theorem not_mem_of_apart {rest : List Nat} (hb : Preorder children (children n) below)
    (hr : Preorder children ns rest) (hs : Siblings parent children)
    (apart : ∀ a ∈ ns, ¬Climbs parent n a ∧ ¬Climbs parent a n) (hm : m ∈ below) : m ∉ rest := by
  intro hm'
  rcases (hb.mem_iff hs).mp hm with ⟨c, hc, hmc⟩
  rcases (hr.mem_iff hs).mp hm' with ⟨a, ha, hma⟩
  have hmn : Climbs parent m n := hmc.tail ((hs.mem n c).mp hc)
  rcases hmn.total hma with h | h
  · exact (apart a ha).1 h
  · exact (apart a ha).2 h

/-- Nodes that lie apart, each met once, have an order without repetitions. -/
theorem nodup (h : Preorder children ns l) (hf : Forest size parent) (hs : Siblings parent children)
    (hns : ns.Nodup) (apart : ∀ a ∈ ns, ∀ b ∈ ns, Climbs parent a b → a = b) : l.Nodup := by
  induction h with
  | nil => exact List.nodup_nil
  | @cons n ns below rest hb hr ihb ihr =>
    rw [List.nodup_cons] at hns
    have hbelow : below.Nodup := by
      refine ihb (hs.nodup n) fun a ha b hb hab => ?_
      rcases hab.cases_some ((hs.mem n a).mp ha) with hab | hab
      · exact hab
      · exact absurd hab (hf.not_climbs_back ((hs.mem n b).mp hb))
    have hrest : rest.Nodup := ihr hns.2 fun a ha b hb =>
      apart a (List.mem_cons_of_mem n ha) b (List.mem_cons_of_mem n hb)
    -- the first node and a later one lie apart in both directions
    have happ : ∀ a ∈ ns, ¬ Climbs parent n a ∧ ¬ Climbs parent a n := by
      intro a ha
      have ha' := List.mem_cons_of_mem n ha
      constructor
      · intro hc
        rw [apart n List.mem_cons_self a ha' hc] at hns
        exact hns.1 ha
      · intro hc
        rw [← apart a ha' n List.mem_cons_self hc] at hns
        exact hns.1 ha
    rw [List.nodup_cons, List.nodup_append, List.mem_append]
    refine ⟨?_, hbelow, hrest, ?_⟩
    · intro hin
      rcases hin with hn | hn
      · rcases (hb.mem_iff hs).mp hn with ⟨c, hc, hn⟩
        exact hf.not_climbs_back ((hs.mem n c).mp hc) hn
      · rcases (hr.mem_iff hs).mp hn with ⟨a, ha, hn⟩
        exact (happ a ha).1 hn
    · rintro x hx y hy rfl
      exact not_mem_of_apart hb hr hs happ hx hy

theorem nodup_single (h : Preorder children [n] l) (hf : Forest size parent)
    (hs : Siblings parent children) : l.Nodup := by
  refine h.nodup hf hs (List.nodup_cons.mpr ⟨List.not_mem_nil, List.nodup_nil⟩) ?_
  intro a ha b hb _
  rw [List.mem_singleton.mp ha, List.mem_singleton.mp hb]

theorem mem_single_iff (h : Preorder children [n] l) (hs : Siblings parent children) :
    m ∈ l ↔ Climbs parent m n := by
  rw [h.mem_iff hs]
  constructor
  · intro hin
    rcases hin with ⟨a, ha, hm⟩
    rwa [List.mem_singleton.mp ha] at hm
  · exact fun hm => ⟨n, List.mem_singleton.mpr rfl, hm⟩

end Siblings

end Preorder

/-! ## The order of a sound graph -/

namespace Graph

variable {g : Graph} {n m : Nat} {l : List Nat}

theorem Sound.exists_preorder (h : g.Sound) (ns : List Nat) : ∃ l, Preorder g.children ns l :=
  Preorder.exists_of_wellFounded (h.forest.wellFounded_children h.siblings) ns

/-- Walking through the trees of all roots meets every node of the graph once. -/
theorem Sound.preorder_roots (h : g.Sound) (hl : Preorder g.children g.roots l) :
    l.Nodup ∧ ∀ n, n ∈ l ↔ n < g.nodes.size := by
  constructor
  · -- roots lie apart, since nothing is above them
    refine hl.nodup h.forest h.siblings (nodup_roots g) fun a ha b _ hab => ?_
    exact hab.eq_of_none (mem_roots.mp ha).2
  · intro n
    rw [hl.mem_iff h.siblings]
    constructor
    · intro hin
      rcases hin with ⟨r, hr, hc⟩
      exact h.forest.lt_of_climbs_of_lt hc (mem_roots.mp hr).1
    · intro hn
      rcases (h.existsUnique_root hn).exists with ⟨r, hr, hc⟩
      exact ⟨r, hr, hc⟩

def tree (g : Graph) (n : Nat) : List Nat :=
  g.indices.filter fun m => m = n ∨ n ∈ g.ancestors m

theorem nodup_tree (g : Graph) (n : Nat) : (g.tree n).Nodup :=
  List.nodup_range.filter _

theorem Sound.perm_tree (h : g.Sound) (hn : n < g.nodes.size) (hl : Preorder g.children [n] l) :
    l.Perm (g.tree n) := by
  have hnodup : l.Nodup := hl.nodup_single h.forest h.siblings
  refine (List.perm_ext_iff_of_nodup hnodup (g.nodup_tree n)).mpr fun m => ?_
  rw [hl.mem_single_iff h.siblings, tree, List.mem_filter, mem_indices, decide_eq_true_iff,
    ← h.climbs_iff]
  exact (and_iff_right_of_imp fun hc => h.forest.lt_of_climbs_of_lt hc hn).symm

/-- Below a node lie at most as many nodes as there are edges: each is the target of one. -/
theorem Sound.length_below_le (h : g.Sound) (hl : Preorder g.children (g.children n) l) :
    l.length ≤ g.edges.size := by
  have hnodup : (n :: l).Nodup := (hl.single).nodup_single h.forest h.siblings
  -- every node below has a parent, so it is the target of an edge
  have hsub : l ⊆ g.edges.toList.map Edge.target := by
    intro m hm
    rcases (hl.mem_iff h.siblings).mp hm with ⟨c, hc, hmc⟩
    have hp : ∃ p, g.parent? m = some p := by
      rcases hmc.cases_head with rfl | ⟨p, hp, _⟩
      · exact ⟨n, h.mem_children_iff.mp hc⟩
      · exact ⟨p, hp⟩
    rcases hp with ⟨p, hp⟩
    have he := Array.mem_toList_iff.mpr (h.parent?_eq_some.mp hp)
    exact List.mem_map.mpr ⟨_, he, rfl⟩
  have hle := (List.Nodup.subperm (List.nodup_cons.mp hnodup).2 hsub).length_le
  rwa [List.length_map, Array.length_toList] at hle

end Graph

end UnitGraph
