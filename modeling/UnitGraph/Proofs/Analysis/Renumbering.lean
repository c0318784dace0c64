import Mathlib
import UnitGraph.Analysis.Session
import UnitGraph.Proofs.Analysis.Dependences
import UnitGraph.Proofs.Analysis.Workload
import UnitGraph.Proofs.Graph.Renumbering

/-!
# Analyses of a renumbered graph

Counts, workloads and dependences ask for lines, kinds, ancestors and sums.  None of these depends
on how the nodes are numbered or in which order the edges come, so every answer about a node is the
answer about the same node of the renumbered graph.
-/

namespace UnitGraph

namespace Graph.Renumbered

variable {σ : Equiv.Perm Nat} {g g' : Graph} {n m L s t : Nat} {p : Profile} {k : Markers}

theorem filterMap_node? (h : Renumbered σ g g') {l l' : List Nat} (hl : l'.Perm (l.map σ)) :
    (l'.filterMap g'.node?).Perm (l.filterMap g.node?) := by
  have hperm := hl.filterMap g'.node?
  rw [List.filterMap_map, show g'.node? ∘ σ = g.node? from funext h.node] at hperm
  exact hperm

/-! ## Iterations -/

theorem raw (h : Renumbered σ g g') (e : Estimator) (n : Nat) : e.raw g' (σ n) = e.raw g n := by
  rw [Estimator.raw, Estimator.raw, h.node]

theorem parent (h : Renumbered σ g g') (hg : g.Sound) (e : Estimator) (n : Nat) :
    e.parent g' (σ n) = e.parent g n := by
  rw [Estimator.parent, Estimator.parent, h.enclosingLoop? hg]
  cases g.enclosingLoop? n with
  | none => rfl
  | some l => exact congrArg (max · 1) (h.raw e l)

theorem answer (h : Renumbered σ g g') (hg : g.Sound) (p : Profile) (n : Nat) :
    (Estimator.new p).answer g' (σ n) = (Estimator.new p).answer g n := by
  rw [Estimator.answer_new, Estimator.answer_new, h.raw, h.parent hg]

/-! ## Workloads -/

theorem unitsUnder (h : Renumbered σ g g') (hg : g.Sound) (n : Nat) :
    (g'.unitsUnder (σ n)).Perm ((g.unitsUnder n).map σ) := by
  have hnodup : ∀ (g : Graph) n, (g.unitsUnder n).Nodup := fun _ _ =>
    (List.nodup_range.filter _).filter _
  refine perm_map_of_mem_iff (hnodup g n) (hnodup g' _) fun u => ?_
  rw [mem_unitsUnder, mem_unitsUnder, h.isKind, h.ancestors hg,
    List.mem_map_of_injective σ.injective]

/-- The numbers that follow the rules on the graph follow them on the renumbered one. -/
theorem exact (h : Renumbered σ g g') (hg : g.Sound) {iterations iterations' : Nat → Count}
    {w : Nat → Nat} (hi : ∀ n, iterations' (σ n) = iterations n)
    (hw : Workload.Exact k g iterations w) :
    Workload.Exact k g' iterations' (w ∘ σ.symm) := by
  intro n
  rw [← σ.apply_symm_apply n]
  generalize σ.symm n = n
  -- the units and the children are the same in another order, and only sums are taken over them
  have hunits := (h.filterMap_node? (h.unitsUnder hg n)).map (k.weigh (iterations n))
  have hchildren := (h.children hg n).map (w ∘ σ.symm)
  rw [List.map_map, Function.comp_assoc, Equiv.symm_comp_self, Function.comp_id] at hchildren
  rw [Function.comp_apply, Equiv.symm_apply_apply, hw n, Workload.weight, Workload.weight, h.node,
    hi, hunits.sum_eq, hchildren.sum_eq]

theorem estimate (h : Renumbered σ g g') (hg : g.Sound) (k : Markers) (p : Profile)
    (hn : n < g.nodes.size) :
    (Workload.estimate k g' (.build g') (σ n) (.new p)).1 =
      (Workload.estimate k g (.build g) n (.new p)).1 := by
  have hg' := h.sound hg
  have hn' : σ n < g'.nodes.size := by
    rw [← node?_isSome, h.node, node?_isSome]
    exact hn
  rcases (Workload.existsUnique_exact hg k ((Estimator.new p).answer g)).exists with ⟨w, hw⟩
  have hw' := h.exact hg (h.answer hg p) hw
  rw [Workload.estimate_eq hg' (SubtreeIndex.exact_build hg') hw',
    Workload.estimate_eq hg (SubtreeIndex.exact_build hg) hw, if_pos hn, if_pos hn',
    Function.comp_apply, Equiv.symm_apply_apply]

theorem totalInstructions (h : Renumbered σ g g') (hg : g.Sound) (n : Nat) :
    Workload.totalInstructions g' (.build g') (σ n) =
      Workload.totalInstructions g (.build g) n := by
  rw [Workload.totalInstructions, Workload.totalInstructions, Workload.units, Workload.units]
  exact Count.sum_perm ((h.filterMap_node? (h.subtreeOfKind hg n .unit)).map Node.instructions)

/-! ## Dependences -/

theorem headerUnder_iff (h : Renumbered σ g g') (hg : g.Sound) {line : SourceLine} :
    g'.HeaderUnder (σ L) line ↔ g.HeaderUnder L line := by
  rw [HeaderUnder, HeaderUnder, σ.surjective.exists]
  simp only [h.node, h.climbs_iff hg]

theorem loopIndex_iff (h : Renumbered σ g g') (hg : g.Sound) {d : Dependence} :
    g'.LoopIndex (σ L) (σ t) d ↔ g.LoopIndex L t d := by
  constructor
  · intro hin
    exact ⟨hin.line, (h.headerUnder_iff hg).mp hin.header, (h.climbs_iff hg).mp hin.target⟩
  · intro hin
    exact ⟨hin.line, (h.headerUnder_iff hg).mpr hin.header, (h.climbs_iff hg).mpr hin.target⟩

theorem readOnly (h : Renumbered σ g g') (hg : g.Sound) {var : String} (hin : g.ReadOnly L var) :
    g'.ReadOnly (σ L) var where
  -- the ends of every edge are new numbers of some nodes
  sink s t d he hvar hkind hc := by
    rw [← σ.apply_symm_apply s, h.climbs_iff hg] at hc
    rw [← σ.apply_symm_apply s, ← σ.apply_symm_apply t, h.mem_edges] at he
    exact (h.headerUnder_iff hg).mpr (hin.sink _ _ d he hvar hkind hc)
  source s t d he hvar hkind hc := by
    rw [← σ.apply_symm_apply t, h.climbs_iff hg] at hc
    rw [← σ.apply_symm_apply s, ← σ.apply_symm_apply t, h.mem_edges] at he
    exact (h.headerUnder_iff hg).mpr (hin.source _ _ d he hvar hkind hc)

theorem readOnly_iff (h : Renumbered σ g g') (hg : g.Sound) {var : String} :
    g'.ReadOnly (σ L) var ↔ g.ReadOnly L var := by
  -- the first graph is a renumbering of the second one in turn
  refine ⟨fun hin => ?_, h.readOnly hg⟩
  have hback := h.symm.readOnly (h.sound hg) hin
  rwa [Equiv.symm_apply_apply] at hback

theorem mem_nonBenignDependencies_iff (h : Renumbered σ g g') (hg : g.Sound) :
    σ m ∈ g'.classifier.nonBenignDependencies (σ n) (σ L) ↔
      m ∈ g.classifier.nonBenignDependencies n L := by
  have hc := Classifier.sound_classifier hg
  have hc' := Classifier.sound_classifier (h.sound hg)
  rw [hc.mem_nonBenignDependencies, hc'.mem_nonBenignDependencies, σ.surjective.exists]
  simp only [classifier_graph, h.mem_edges, h.climbs_iff hg, h.loopIndex_iff hg,
    h.readOnly_iff hg]

theorem hasDependency (h : Renumbered σ g g') (hg : g.Sound) (s t : Nat) :
    g'.classifier.hasDependency (σ s) (σ t) = g.classifier.hasDependency s t := by
  have hc := Classifier.sound_classifier hg
  have hc' := Classifier.sound_classifier (h.sound hg)
  rw [Bool.eq_iff_iff, hc.hasDependency_iff, hc'.hasDependency_iff, σ.injective.ne_iff,
    σ.surjective.exists]
  refine and_congr_right fun _ => exists_congr fun u => ?_
  rw [σ.surjective.exists]
  simp only [classifier_graph, h.mem_edges, h.climbs_iff hg]

theorem hasDependencyIgnoringBenign (h : Renumbered σ g g') (hg : g.Sound) (s t L : Nat) :
    g'.classifier.hasDependencyIgnoringBenign (σ s) (σ t) (σ L) =
      g.classifier.hasDependencyIgnoringBenign s t L := by
  have hc := Classifier.sound_classifier hg
  have hc' := Classifier.sound_classifier (h.sound hg)
  rw [Bool.eq_iff_iff, hc.hasDependencyIgnoringBenign_iff, hc'.hasDependencyIgnoringBenign_iff,
    σ.injective.ne_iff, σ.surjective.exists]
  simp only [classifier_graph, h.mem_nonBenignDependencies_iff hg, h.climbs_iff hg]

end Graph.Renumbered

end UnitGraph
