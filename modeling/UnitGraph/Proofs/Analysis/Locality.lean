import UnitGraph.Proofs.Analysis.Workload
import UnitGraph.Proofs.Graph.Locality

/-!
# Counts seen from below a node

Effective iterations of a node are read off the node and the loop around it, and its workload off
the nodes below it.  So both are the same in two graphs that keep the node.
-/

namespace UnitGraph.Graph.Keeps

variable {g g' : Graph} {f : Nat} {m : Markers} {p : Profile}

/-! ## Iterations -/

theorem answer (h : g.Keeps g' f) (p : Profile) :
    (Estimator.new p).answer g' f = (Estimator.new p).answer g f := by
  have hraw : (Estimator.new p).raw g' f = (Estimator.new p).raw g f := by
    rw [Estimator.raw, Estimator.raw, h.node f .refl]
  have hparent : (Estimator.new p).parent g' f = (Estimator.new p).parent g f := by
    rw [Estimator.parent, Estimator.parent, h.loop]
    cases hl : g.enclosingLoop? f with
    | none => rfl
    | some l =>
      change max ((Estimator.new p).raw g' l) 1 = max ((Estimator.new p).raw g l) 1
      rw [Estimator.raw, Estimator.raw, h.around l hl]
  rw [Estimator.answer_new, Estimator.answer_new, hraw, hparent]

/-! ## Workloads -/

theorem units (h : g.Keeps g' f) (hg : g.Sound) (hg' : g'.Sound) :
    Workload.units g' (.build g') f = Workload.units g (.build g) f := by
  unfold Workload.units
  rw [h.subtreeOfKind hg hg']
  apply List.filterMap_congr
  intro n hn
  exact h.node?_of_mem hg hn

theorem totalInstructions (h : g.Keeps g' f) (hg : g.Sound) (hg' : g'.Sound) :
    Workload.totalInstructions g' (.build g') f = Workload.totalInstructions g (.build g) f := by
  rw [Workload.totalInstructions, Workload.totalInstructions, h.units hg hg']

/-- What the units under a loop weigh is read off the index, in whose order they come. -/
theorem sum_unitsUnder (h : g.Keeps g' f) (hg : g.Sound) (hg' : g'.Sound)
    (hf : g.isKind f .loop) (weigh : Node → Nat) :
    (((g'.unitsUnder f).filterMap g'.node?).map weigh).sum =
      (((g.unitsUnder f).filterMap g.node?).map weigh).sum := by
  have hf' : g'.isKind f .loop := by rwa [h.isKind .refl]
  have hperm := hg.perm_unitsUnder (SubtreeIndex.exact_build hg) hf
  have hperm' := hg'.perm_unitsUnder (SubtreeIndex.exact_build hg') hf'
  calc (((g'.unitsUnder f).filterMap g'.node?).map weigh).sum
    _ = ((Workload.units g' (.build g') f).map weigh).sum :=
      ((hperm'.filterMap g'.node?).map weigh).sum_eq.symm
    _ = ((Workload.units g (.build g) f).map weigh).sum := by rw [h.units hg hg']
    _ = (((g.unitsUnder f).filterMap g.node?).map weigh).sum :=
      ((hperm.filterMap g.node?).map weigh).sum_eq

/-- The numbers that follow the rules on either graph are the same from the node down. -/
theorem weight_eq (h : g.Keeps g' f) (hg : g.Sound) (hg' : g'.Sound) {w w' : Nat → Nat}
    (hw : Workload.Exact m g ((Estimator.new p).answer g) w)
    (hw' : Workload.Exact m g' ((Estimator.new p).answer g') w') : w' f = w f := by
  have hwf := hg.forest.wellFounded_children hg.siblings
  -- induction along the children, which the graphs have in common
  induction f using hwf.induction with
  | h f ih =>
    have hbelow : (g.children f).map w' = (g.children f).map w := by
      apply List.map_congr_left
      intro c hc
      exact ih c hc (h.child hg hg' (hg.mem_children_iff.mp hc))
    rw [hw f, hw' f, Workload.weight, Workload.weight, h.node f .refl, h.children f .refl, hbelow,
      h.answer p]
    cases hnode : g.node? f with
    | none => rfl
    | some node =>
      rw [Option.map_some]
      cases hp : node.payload with
      | unit => rfl
      | loop =>
        apply h.sum_unitsUnder hg hg'
        exact isKind_iff.mpr ⟨node, hnode, by rw [Node.kind, hp]; rfl⟩
      | function => rfl
      | dummy => rfl

theorem estimate (h : g.Keeps g' f) (hg : g.Sound) (hg' : g'.Sound) (m : Markers) (p : Profile) :
    (Workload.estimate m g' (.build g') f (.new p)).1 =
      (Workload.estimate m g (.build g) f (.new p)).1 := by
  rcases (Workload.existsUnique_exact hg m ((Estimator.new p).answer g)).exists with ⟨w, hw⟩
  rcases (Workload.existsUnique_exact hg' m ((Estimator.new p).answer g')).exists with ⟨w', hw'⟩
  rw [Workload.estimate_eq hg (SubtreeIndex.exact_build hg) hw,
    Workload.estimate_eq hg' (SubtreeIndex.exact_build hg') hw', h.weight_eq hg hg' hw hw']
  simp only [h.lt_iff]

end UnitGraph.Graph.Keeps
