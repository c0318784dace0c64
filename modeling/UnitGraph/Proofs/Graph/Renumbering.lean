import Mathlib.Logic.Equiv.Defs
import UnitGraph.Proofs.Graph.Indexing

/-!
# Renumbered graphs

The numbers of nodes only say in which order they were added.  A graph whose nodes have other
numbers, and whose edges come in another order, contains the same forest: parents and ancestors
correspond one by one, children and subtrees up to their order.
-/

namespace UnitGraph

def Edge.renumber (σ : Nat → Nat) (e : Edge) : Edge := ⟨σ e.source, σ e.target, e.label⟩

/-- The second graph is the first one with node `n` as its node `σ n` and the edges in any order. -/
structure Graph.Renumbered (σ : Equiv.Perm Nat) (g g' : Graph) : Prop where
  size : g'.nodes.size = g.nodes.size
  node : ∀ n, g'.node? (σ n) = g.node? n
  byId : ∀ id, g'.byId? id = (g.byId? id).map σ
  edges : g'.edges.toList.Perm (g.edges.toList.map (Edge.renumber σ))

/-! ## Lists and climbs -/

theorem perm_map_of_mem_iff {σ : Equiv.Perm Nat} {l l' : List Nat} (hl : l.Nodup) (hl' : l'.Nodup)
    (h : ∀ n, σ n ∈ l' ↔ n ∈ l) : l'.Perm (l.map σ) := by
  refine (List.perm_ext_iff_of_nodup hl' (hl.map σ.injective)).mpr fun m => ?_
  rw [← σ.apply_symm_apply m, h, List.mem_map_of_injective σ.injective]

theorem climb_map {step step' : Nat → Option Nat} {f : Nat → Nat}
    (h : ∀ n, step' (f n) = (step n).map f) (limit n : Nat) :
    climb step' limit (f n) = (climb step limit n).map f := by
  induction limit generalizing n with
  | zero => rfl
  | succ limit ih =>
    have hstep := h n
    cases hn : step n with
    | none =>
      rw [hn] at hstep
      rw [climb_succ_none limit hn, climb_succ_none limit hstep]
      rfl
    | some m =>
      rw [hn] at hstep
      rw [climb_succ_some limit hn, climb_succ_some limit hstep, ih m]
      rfl

theorem Climbs.map {step step' : Nat → Option Nat} {f : Nat → Nat} {n m : Nat}
    (h : ∀ n, step' (f n) = (step n).map f) (hc : Climbs step n m) : Climbs step' (f n) (f m) := by
  refine hc.lift f fun a b hab => ?_
  show step' (f a) = some (f b)
  rw [h, hab]
  rfl

namespace Graph

namespace Renumbered

variable {σ : Equiv.Perm Nat} {g g' : Graph} {n m s t : Nat}

theorem renumber_symm (σ : Equiv.Perm Nat) : Edge.renumber σ.symm ∘ Edge.renumber σ = id := by
  funext e
  rcases e with ⟨s, t, l⟩
  simp only [Function.comp_apply, Edge.renumber, Equiv.symm_apply_apply, id_eq]

theorem symm (h : Renumbered σ g g') : Renumbered σ.symm g' g where
  size := h.size.symm
  node n := by rw [← h.node, Equiv.apply_symm_apply]
  byId id := by
    rw [h.byId, Option.map_map, Equiv.symm_comp_self, Option.map_id_fun, id_eq]
  edges := by
    have hmap := h.edges.map (Edge.renumber σ.symm)
    rw [List.map_map, renumber_symm, List.map_id] at hmap
    exact hmap.symm

/-! ## Nodes and edges -/

theorem isKind (h : Renumbered σ g g') (n : Nat) (kind : NodeKind) :
    g'.isKind (σ n) kind = g.isKind n kind := by
  rw [Graph.isKind, Graph.isKind, kind?, kind?, h.node]

theorem mem_edges (h : Renumbered σ g g') {l : EdgeLabel} :
    ⟨σ s, σ t, l⟩ ∈ g'.edges ↔ ⟨s, t, l⟩ ∈ g.edges := by
  rw [← Array.mem_toList_iff, h.edges.mem_iff, List.mem_map]
  constructor
  · intro hin
    rcases hin with ⟨⟨s', t', l'⟩, he, heq⟩
    rw [Edge.renumber, Edge.mk.injEq, σ.apply_eq_iff_eq, σ.apply_eq_iff_eq] at heq
    rcases heq with ⟨rfl, rfl, rfl⟩
    exact Array.mem_toList_iff.mp he
  · intro he
    exact ⟨_, Array.mem_toList_iff.mpr he, rfl⟩

theorem single (h : Renumbered σ g g') (hg : g.Sound) (c : Nat) :
    g'.edges.toList.countP (fun e => e.target = c && e.label.isChild) ≤ 1 := by
  rw [h.edges.countP_eq, List.countP_map]
  -- an edge ends at `c` now exactly when it ended at `σ.symm c` before
  refine Nat.le_trans (Nat.le_of_eq (List.countP_congr fun e _ => ?_)) (hg.single (σ.symm c))
  show (decide (σ e.target = c) && e.label.isChild) = true ↔
    (decide (e.target = σ.symm c) && e.label.isChild) = true
  rw [Bool.and_eq_true, Bool.and_eq_true, decide_eq_true_iff, decide_eq_true_iff,
    Equiv.eq_symm_apply]

theorem parent?_iff (h : Renumbered σ g g') (hg : g.Sound) :
    g'.parent? (σ n) = some (σ m) ↔ g.parent? n = some m := by
  rw [parent?_eq_some_of_single (h.single hg (σ n)), h.mem_edges, hg.parent?_eq_some]

theorem parent? (h : Renumbered σ g g') (hg : g.Sound) (n : Nat) :
    g'.parent? (σ n) = (g.parent? n).map σ := by
  refine Option.ext fun p => ?_
  rw [← σ.apply_symm_apply p, h.parent?_iff hg, Option.map_eq_some_iff]
  constructor
  · intro hp
    exact ⟨σ.symm p, hp, rfl⟩
  · intro hin
    rcases hin with ⟨q, hq, heq⟩
    rw [← σ.injective heq, hq]

/-- What the analyses rely on does not depend on the numbers. -/
theorem sound (h : Renumbered σ g g') (hg : g.Sound) : g'.Sound where
  ids id n := by
    rw [h.byId, Option.map_eq_some_iff, ← σ.apply_symm_apply n, h.node, ← hg.ids]
    constructor
    · intro hin
      rcases hin with ⟨m, hm, heq⟩
      rw [← σ.injective heq, hm]
    · intro hm
      exact ⟨σ.symm n, hm, rfl⟩
  single := h.single hg
  forest := by
    rcases hg.forest.ranked with ⟨rank, hrank⟩
    have hparent : ∀ c p, g'.parent? c = some p → g.parent? (σ.symm c) = some (σ.symm p) := by
      intro c p hp
      rw [← h.parent?_iff hg, Equiv.apply_symm_apply, Equiv.apply_symm_apply, hp]
    have hlt : ∀ m, σ.symm m < g.nodes.size → m < g'.nodes.size := by
      intro m hm
      rw [← node?_isSome, ← h.node, Equiv.apply_symm_apply] at hm
      exact node?_isSome.mp hm
    -- a node keeps the rank that it had under its old number
    refine ⟨fun c p hp => ?_, fun m => rank (σ.symm m), fun c p hp => hrank _ _ (hparent c p hp)⟩
    have hbelow := hg.forest.below _ _ (hparent c p hp)
    exact ⟨hlt c hbelow.1, hlt p hbelow.2⟩
  units s t d he := by
    rw [← σ.apply_symm_apply s, ← σ.apply_symm_apply t, h.mem_edges] at he
    have hends := hg.units _ _ d he
    rw [← h.isKind, ← h.isKind, Equiv.apply_symm_apply, Equiv.apply_symm_apply] at hends
    exact hends

/-! ## Containment -/

theorem climbs_iff (h : Renumbered σ g g') (hg : g.Sound) :
    Climbs g'.parent? (σ n) (σ m) ↔ Climbs g.parent? n m := by
  constructor
  · intro hc
    -- the first graph is a renumbering of the second one in turn
    have hback := hc.map (h.symm.parent? (h.sound hg))
    rwa [Equiv.symm_apply_apply, Equiv.symm_apply_apply] at hback
  · exact fun hc => hc.map (h.parent? hg)

theorem ancestors (h : Renumbered σ g g') (hg : g.Sound) (n : Nat) :
    g'.ancestors (σ n) = (g.ancestors n).map σ := by
  rw [Graph.ancestors, Graph.ancestors, h.parent? hg, h.size]
  cases g.parent? n with
  | none => rfl
  | some p => exact climb_map (h.parent? hg) g.nodes.size p

theorem enclosingLoop? (h : Renumbered σ g g') (hg : g.Sound) (n : Nat) :
    g'.enclosingLoop? (σ n) = (g.enclosingLoop? n).map σ := by
  have hkind : ((g'.isKind · .loop) ∘ σ) = (g.isKind · .loop) :=
    funext fun m => h.isKind m .loop
  rw [Graph.enclosingLoop?, Graph.enclosingLoop?, h.ancestors hg, List.find?_map, hkind]

theorem children (h : Renumbered σ g g') (hg : g.Sound) (n : Nat) :
    (g'.children (σ n)).Perm ((g.children n).map σ) := by
  have hg' := h.sound hg
  refine perm_map_of_mem_iff (hg.nodup_children n) (hg'.nodup_children _) fun c => ?_
  rw [mem_children, mem_children, h.mem_edges]

/-- The subtree of a node holds the same nodes, in an order of its own. -/
theorem subtree (h : Renumbered σ g g') (hg : g.Sound) (n : Nat) :
    ((SubtreeIndex.build g').subtree (σ n)).Perm (((SubtreeIndex.build g).subtree n).map σ) := by
  have hg' := h.sound hg
  have hx := SubtreeIndex.exact_build hg
  have hx' := SubtreeIndex.exact_build hg'
  refine perm_map_of_mem_iff (hx.nodup_subtree hg n) (hx'.nodup_subtree hg' _) fun m => ?_
  rw [hx.mem_subtree hg, hx'.mem_subtree hg', h.climbs_iff hg, ← node?_isSome, ← node?_isSome,
    h.node]

theorem subtreeOfKind (h : Renumbered σ g g') (hg : g.Sound) (n : Nat) (kind : NodeKind) :
    ((SubtreeIndex.build g').subtreeOfKind g' (σ n) kind).Perm
      (((SubtreeIndex.build g).subtreeOfKind g n kind).map σ) := by
  have hkind : ((g'.isKind · kind) ∘ σ) = (g.isKind · kind) := funext fun m => h.isKind m kind
  have hperm := (h.subtree hg n).filter (g'.isKind · kind)
  rw [List.filter_map, hkind] at hperm
  exact hperm

end Renumbered

end Graph

end UnitGraph
