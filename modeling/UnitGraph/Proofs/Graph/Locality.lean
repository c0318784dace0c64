import UnitGraph.Detection.Detector
import UnitGraph.Proofs.Graph.Indexing

/-!
# What can be seen from below a node

Two graphs keep a node when it has the same nodes below it, with the same children in the same
order, and lies in the same loop.  All else may differ: where the node hangs, what else the graphs
hold, and how the edges are numbered.  Whoever keeps a node keeps every node below it.
-/

namespace UnitGraph

theorem Preorder.congr {children children' : Nat → List Nat} {ns l : List Nat}
    (h : Preorder children ns l) (heq : ∀ n ∈ l, children' n = children n) :
    Preorder children' ns l := by
  induction h with
  | nil => exact .nil
  | @cons n ns below rest hb hr ihb ihr =>
    have hn : children' n = children n := heq n List.mem_cons_self
    apply Preorder.cons
    · rw [hn]
      exact ihb fun m hm => heq m (List.mem_cons_of_mem n (List.mem_append_left rest hm))
    · exact ihr fun m hm => heq m (List.mem_cons_of_mem n (List.mem_append_right below hm))

namespace Graph

/-- From the node down, and in the loop around it, the second graph is like the first one. -/
structure Keeps (g g' : Graph) (f : Nat) : Prop where
  node : ∀ n, Climbs g.parent? n f → g'.node? n = g.node? n
  children : ∀ n, Climbs g.parent? n f → g'.children n = g.children n
  loop : g'.enclosingLoop? f = g.enclosingLoop? f
  around : ∀ l, g.enclosingLoop? f = some l → g'.node? l = g.node? l

namespace Keeps

variable {g g' : Graph} {f n : Nat}

theorem isKind (h : g.Keeps g' f) (hn : Climbs g.parent? n f) : g'.isKind n = g.isKind n := by
  funext kind
  rw [Graph.isKind, Graph.isKind, kind?, kind?, h.node n hn]

theorem child (h : g.Keeps g' f) (hg : g.Sound) (hg' : g'.Sound) (hn : g.parent? n = some f) :
    g.Keeps g' n := by
  have hn' : g'.parent? n = some f := by
    rw [← hg'.mem_children_iff, h.children f .refl]
    exact hg.mem_children_iff.mpr hn
  -- all that lies below the child lies below the node
  have hup : ∀ m, Climbs g.parent? m n → Climbs g.parent? m f := fun m hm => hm.tail hn
  refine ⟨fun m hm => h.node m (hup m hm), fun m hm => h.children m (hup m hm), ?_, fun l hl => ?_⟩
  · rw [hg.enclosingLoop?_of_parent hn, hg'.enclosingLoop?_of_parent hn', h.isKind .refl, h.loop]
  · -- the loop around a child is the node itself or the loop around it
    rw [hg.enclosingLoop?_of_parent hn] at hl
    split at hl
    · cases hl
      exact h.node _ .refl
    · exact h.around l hl

theorem below (h : g.Keeps g' f) (hg : g.Sound) (hg' : g'.Sound) (hn : Climbs g.parent? n f) :
    g.Keeps g' n := by
  induction hn using Relation.ReflTransGen.head_induction_on with
  | refl => exact h
  | head hstep _ ih => exact ih.child hg hg' hstep

theorem lt_iff (h : g.Keeps g' f) : f < g'.nodes.size ↔ f < g.nodes.size := by
  rw [← node?_isSome, ← node?_isSome, h.node f .refl]

/-! ## Below the node -/

theorem subtree (h : g.Keeps g' f) (hg : g.Sound) (hg' : g'.Sound) :
    (SubtreeIndex.build g').subtree f = (SubtreeIndex.build g).subtree f := by
  have hx := SubtreeIndex.exact_build hg
  have hx' := SubtreeIndex.exact_build hg'
  by_cases hf : f < g.nodes.size
  · have hpre := hx.subtree_preorder hf
    have hpre' : Preorder g'.children [f] ((SubtreeIndex.build g).subtree f) := by
      apply hpre.congr
      intro n hn
      exact h.children n ((hpre.mem_single_iff hg.siblings).mp hn)
    exact (hx'.subtree_preorder (h.lt_iff.mpr hf)).unique hpre'
  · have hf' : ¬f < g'.nodes.size := fun hf' => hf (h.lt_iff.mp hf')
    rw [hx.subtree_of_ge (Nat.not_lt.mp hf), hx'.subtree_of_ge (Nat.not_lt.mp hf')]

theorem subtreeOfKind (h : g.Keeps g' f) (hg : g.Sound) (hg' : g'.Sound) (kind : NodeKind) :
    (SubtreeIndex.build g').subtreeOfKind g' f kind =
      (SubtreeIndex.build g).subtreeOfKind g f kind := by
  unfold SubtreeIndex.subtreeOfKind
  rw [h.subtree hg hg']
  apply List.filter_congr
  intro n hn
  rw [h.isKind (((SubtreeIndex.exact_build hg).mem_subtree hg).mp hn).2]

theorem node?_of_mem (h : g.Keeps g' f) (hg : g.Sound) {kind : NodeKind}
    (hn : n ∈ (SubtreeIndex.build g).subtreeOfKind g f kind) : g'.node? n = g.node? n := by
  have hmem := (List.mem_filter.mp hn).1
  exact h.node n (((SubtreeIndex.exact_build hg).mem_subtree hg).mp hmem).2

theorem childrenOfKind (h : g.Keeps g' f) (hg : g.Sound) (kind : NodeKind) :
    g'.childrenOfKind f kind = g.childrenOfKind f kind := by
  unfold Graph.childrenOfKind
  rw [h.children f .refl]
  apply List.filter_congr
  intro n hn
  rw [h.isKind (.single (hg.mem_children_iff.mp hn))]

theorem chunkLoops (h : g.Keeps g' f) (hg : g.Sound) (hg' : g'.Sound) :
    g'.chunkLoops f = g.chunkLoops f := by
  unfold Graph.chunkLoops
  rw [h.childrenOfKind hg, h.childrenOfKind hg]
  apply congrArg (g.childrenOfKind f .loop ++ ·)
  apply List.flatMap_congr
  intro n hn
  have hparent := hg.mem_children_iff.mp (mem_childrenOfKind.mp hn).1
  exact (h.child hg hg' hparent).childrenOfKind hg .loop

end Keeps

end Graph

end UnitGraph
