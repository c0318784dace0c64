import UnitGraph.Proofs.Analysis.Dependences

/-!
# Dependences between subtrees

A node depends on another one when an edge leads from the subtree of the first into the subtree of
the second.  The plain question looks at every edge that leaves the first subtree.  The one that
ignores benign dependences looks at a list of targets instead.  Both are about the same edges, only
that the second question passes over those that are benign.
-/

namespace UnitGraph

def Graph.Crosses (g : Graph) (s t e : Nat) : Prop :=
  ∃ u v d, g.edges[e]? = some ⟨u, v, .dependence d⟩ ∧ d.kind = .raw ∧
    Climbs g.parent? u s ∧ Climbs g.parent? v t

namespace Classifier

def Benign (c : Classifier) (L e : Nat) : Prop :=
  c.isLoopIndex e L ∧ c.isReadOnlyInLoopBody e L

namespace Sound

variable {c : Classifier} {s t m n L e : Nat}

theorem hasDependency_iff_crosses (h : c.Sound) :
    c.hasDependency s t ↔ s ≠ t ∧ ∃ e, c.graph.Crosses s t e := by
  rw [h.hasDependency_iff]
  apply and_congr_right
  intro _
  constructor
  · intro hin
    rcases hin with ⟨u, v, d, he, hrest⟩
    rcases Array.mem_iff_getElem?.mp he with ⟨e, hi⟩
    exact ⟨e, u, v, d, hi, hrest⟩
  · intro hin
    rcases hin with ⟨e, u, v, d, hi, hrest⟩
    exact ⟨u, v, d, Array.mem_of_getElem? hi, hrest⟩

theorem benign_of_edge (h : c.Sound) {u v : Nat} {d : Dependence}
    (hi : c.graph.edges[e]? = some ⟨u, v, .dependence d⟩) :
    c.Benign L e ↔ c.graph.LoopIndex L v d ∧ c.graph.ReadOnly L d.var := by
  rw [Benign, h.isLoopIndex_of_edge hi, h.isReadOnlyInLoopBody_of_edge hi]

/-- The targets that lie under `t` are those of the edges that lead there and are not benign. -/
theorem exists_target_iff_crosses (h : c.Sound) :
    (∃ m ∈ c.nonBenignDependencies s L, Climbs c.graph.parent? m t) ↔
      ∃ e, c.graph.Crosses s t e ∧ ¬c.Benign L e := by
  constructor
  · intro hin
    rcases hin with ⟨m, hm, ht⟩
    rcases h.mem_nonBenignDependencies.mp hm with ⟨u, d, he, hkind, hs, hbenign⟩
    rcases Array.mem_iff_getElem?.mp he with ⟨e, hi⟩
    refine ⟨e, ⟨u, m, d, hi, hkind, hs, ht⟩, ?_⟩
    -- whether an edge is benign depends on what it is labelled with, not on its number
    rw [h.benign_of_edge hi]
    exact hbenign
  · intro hin
    rcases hin with ⟨e, ⟨u, v, d, hi, hkind, hs, ht⟩, hbenign⟩
    rw [h.benign_of_edge hi] at hbenign
    refine ⟨v, h.mem_nonBenignDependencies.mpr ?_, ht⟩
    exact ⟨u, d, Array.mem_of_getElem? hi, hkind, hs, hbenign⟩

/-- Every target is a unit, so it lies under `t` when it is `t` or one of the units there. -/
theorem climbs_target_iff (h : c.Sound) (hm : m ∈ c.nonBenignDependencies s L) :
    Climbs c.graph.parent? m t ↔ m ∈ t :: c.index.subtreeOfKind c.graph t .unit := by
  rcases h.mem_nonBenignDependencies.mp hm with ⟨u, d, he, _⟩
  have hunit := (h.graph.units u m d he).2
  rw [List.mem_cons, h.mem_subtreeOfKind]
  constructor
  · intro ht
    exact Or.inr ⟨hunit, ht⟩
  · intro hin
    rcases hin with rfl | ⟨_, ht⟩
    · exact .refl
    · exact ht

theorem hasDependencyIgnoringBenign_iff_crosses (h : c.Sound) :
    c.hasDependencyIgnoringBenign s t L ↔
      s ≠ t ∧ ∃ e, c.graph.Crosses s t e ∧ ¬c.Benign L e := by
  rw [h.hasDependencyIgnoringBenign_iff, h.exists_target_iff_crosses]

end Sound

/-- On a built graph a node depends on another one exactly when an edge crosses from the subtree of
the first into that of the second, and ignoring benign dependences exactly when such an edge is not
benign.  The latter is also to say that one of the targets that the first node has is the second
node or a unit under it.  Passing over benign edges never makes a node depend on another one. -/
theorem hasDependency_crosses (calls : List Builder.Call) :
    let g := Graph.ofCalls calls
    let c := g.classifier
    (∀ s t, c.hasDependency s t ↔ s ≠ t ∧ ∃ e, g.Crosses s t e) ∧
    (∀ s t L, c.hasDependencyIgnoringBenign s t L ↔
      s ≠ t ∧ ∃ e, g.Crosses s t e ∧ ¬c.Benign L e) ∧
    (∀ s t L, c.hasDependencyIgnoringBenign s t L ↔
      s ≠ t ∧ ∃ m ∈ c.nonBenignDependencies s L, m ∈ t :: c.index.subtreeOfKind g t .unit) ∧
    ∀ s t L, c.hasDependencyIgnoringBenign s t L → c.hasDependency s t := by
  intro g c
  have h : c.Sound := sound_classifier (Graph.sound_ofCalls calls)
  refine ⟨fun s t => h.hasDependency_iff_crosses,
    fun s t L => h.hasDependencyIgnoringBenign_iff_crosses, fun s t L => ?_, fun s t L hin => ?_⟩
  · rw [h.hasDependencyIgnoringBenign_iff]
    apply and_congr_right
    intro _
    exact exists_congr fun m => and_congr_right fun hm => h.climbs_target_iff hm
  · -- the same edge crosses, benign or not
    rw [h.hasDependencyIgnoringBenign_iff_crosses] at hin
    rw [h.hasDependency_iff_crosses]
    rcases hin with ⟨hne, e, hcrosses, _⟩
    exact ⟨hne, e, hcrosses⟩

end Classifier

end UnitGraph
