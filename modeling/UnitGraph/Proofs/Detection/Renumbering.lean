import UnitGraph.Proofs.Analysis.Renumbering
import UnitGraph.Proofs.Detection.Reports

/-!
# Detection on a renumbered graph

A function is evaluated alike under its old and its new number, as long as the verdicts on loops are
read off the loops.  Only which of several blocking loops is named may differ: it is the first one
in an order that the numbers and the edges decide.
-/

namespace UnitGraph

/-- The verdict on a node depends on what the node holds, and on nothing else in the graph. -/
def VerdictSource.ReadsNode (v : VerdictSource) : Prop :=
  ∀ g g' n n', g'.node? n' = g.node? n → v g' n' = v g n

theorem readsNode_storedVerdict : VerdictSource.ReadsNode storedVerdict := by
  intro g g' n n' h
  rw [storedVerdict, storedVerdict, h]

theorem SuitabilityScores.readsNode_verdict (scores : SuitabilityScores) :
    VerdictSource.ReadsNode scores.verdict := by
  intro g g' n n' h
  rw [verdict, verdict, h, readsNode_storedVerdict g g' n n' h]

/-- The outcomes agree but for the number of the function and the loop that is named as blocking. -/
structure Outcome.Alike (o o' : Outcome) : Prop where
  id : o'.id = o.id
  name : o'.name = o.name
  matched : o'.matched = o.matched
  reported : o'.reported = o.reported
  minIterations : o'.minIterations = o.minIterations

namespace Graph.Renumbered

variable {σ : Equiv.Perm Nat} {g g' : Graph} {f l : Nat} {d : Detector} {p : Profile}
  {config : Config}

theorem chunk_iff (h : Renumbered σ g g') (hg : g.Sound) :
    g'.Chunk (σ f) (σ l) ↔ g.Chunk f l := by
  rw [Chunk, Chunk, σ.surjective.exists]
  simp only [h.isKind, h.parent?_iff hg]

theorem minChunkIterations (h : Renumbered σ g g') (hg : g.Sound) (p : Profile) (config : Config)
    (f : Nat) : (Detector.minChunkIterations (.new g' p config) (σ f)).1 =
      (Detector.minChunkIterations (.new g p config) f).1 := by
  have hg' := h.sound hg
  rw [Detector.minChunkIterations_eq_min? hg (.refl _),
    Detector.minChunkIterations_eq_min? hg' (.refl _)]
  refine Count.min?_congr fun c => ?_
  rw [List.mem_map, List.mem_map, σ.surjective.exists]
  simp only [hg.mem_chunkLoops, hg'.mem_chunkLoops, h.chunk_iff hg, h.answer hg]

/-- A loop that cannot be split is found in both graphs or in none, though it need not be the same
one. -/
theorem isSome_findBlockingLoop (h : Renumbered σ g g') (hg : g.Sound) (hd : d.verdicts.ReadsNode)
    (p : Profile) (config : Config) (f : Nat) :
    (d.findBlockingLoop (.new g' p config) (σ f)).isSome =
      (d.findBlockingLoop (.new g p config) f).isSome := by
  have hverdict : ∀ l, d.verdicts g' (σ l) = d.verdicts g l := fun l => hd g g' l _ (h.node l)
  -- which loop comes first depends on the numbers, whether there is one does not
  have hloops : ∀ l, σ l ∈ (SubtreeIndex.build g').subtreeOfKind g' (σ f) .loop ↔
      l ∈ (SubtreeIndex.build g).subtreeOfKind g f .loop := by
    intro l
    rw [(h.subtreeOfKind hg f .loop).mem_iff, List.mem_map_of_injective σ.injective]
  rw [Bool.eq_iff_iff, Detector.findBlockingLoop, Detector.findBlockingLoop, List.find?_isSome,
    List.find?_isSome, σ.surjective.exists]
  show (∃ l, σ l ∈ (SubtreeIndex.build g').subtreeOfKind g' (σ f) .loop ∧
    !(d.verdicts g' (σ l)).isParallelizable) ↔ _
  simp only [hloops, hverdict]
  exact Iff.rfl

theorem evaluate (h : Renumbered σ g g') (hg : g.Sound) (hd : d.verdicts.ReadsNode)
    (p : Profile) (config : Config) (f : Nat) :
    (d.evaluate (.new g p config) f).1.Alike (d.evaluate (.new g' p config) (σ f)).1 := by
  have hsome := h.isSome_findBlockingLoop hg hd p config f
  -- identifier and name are read off the node, which is the same
  have hnode : (Session.new g' p config).graph.node? (σ f) =
      (Session.new g p config).graph.node? f := h.node f
  cases hblock : d.findBlockingLoop (.new g p config) f with
  | none =>
    rw [hblock, Option.isSome_none, Option.isSome_eq_false_iff, Option.isNone_iff_eq_none] at hsome
    rw [Detector.evaluate_of_none hblock, Detector.evaluate_of_none hsome, hnode,
      h.minChunkIterations hg]
    exact ⟨rfl, rfl, rfl, rfl, rfl⟩
  | some l =>
    rw [hblock, Option.isSome_some, Option.isSome_iff_exists] at hsome
    rcases hsome with ⟨l', hblock'⟩
    rw [Detector.evaluate_of_some hblock, Detector.evaluate_of_some hblock', hnode]
    exact ⟨rfl, rfl, rfl, rfl, rfl⟩

end Graph.Renumbered

end UnitGraph
