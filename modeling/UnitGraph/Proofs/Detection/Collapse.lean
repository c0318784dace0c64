import UnitGraph.Proofs.Analysis.Workload
import UnitGraph.Proofs.Detection.Headers

/-!
# Counting a header line once loses nothing

The counts of chunking loops are gathered by header line, so a loop may take the place of another
one.  Chunking loops of one function have the same nearest loop around them.  Those of one line
therefore count alike, and the least count is the one that the loops have without being gathered,
in whatever order they are visited.
-/

namespace UnitGraph

/-! ## The order of the edges -/

namespace Graph

variable {g : Graph} {es : Array Edge} {f l : Nat}

theorem chunk_reordered (hg : g.Sound) (hes : es.Perm g.edges) :
    (g.reordered es).Chunk f l ↔ g.Chunk f l := by
  rw [Chunk, Chunk, parent?_reordered hg hes]
  rfl

theorem mem_chunkLoops_reordered (hg : g.Sound) (hes : es.Perm g.edges) :
    l ∈ (g.reordered es).chunkLoops f ↔ l ∈ g.chunkLoops f := by
  rw [(hg.reordered hes).mem_chunkLoops, hg.mem_chunkLoops, chunk_reordered hg hes]

end Graph

namespace Detector

variable {g : Graph} {p : Profile} {config : Config} {f : Nat}

theorem minChunkIterations_reordered (hg : g.Sound) {es : Array Edge} (hes : es.Perm g.edges)
    (p : Profile) (config : Config) (f : Nat) :
    (minChunkIterations (.new (g.reordered es) p config) f).1 =
      (minChunkIterations (.new g p config) f).1 := by
  rw [minChunkIterations_eq_min? (hg.reordered hes) (.refl _),
    minChunkIterations_eq_min? hg (.refl _), Workload.answer_reordered hg hes]
  apply Count.min?_congr
  intro c
  rw [List.mem_map, List.mem_map]
  simp only [Graph.mem_chunkLoops_reordered hg hes]

theorem minChunkIterations_eq_none (hg : g.Sound) (p : Profile) (config : Config) (f : Nat) :
    (minChunkIterations (.new g p config) f).1 = none ↔ ∀ l, ¬g.Chunk f l := by
  rw [minChunkIterations_eq_min? hg (.refl _), List.min?_eq_none_iff, List.map_eq_nil_iff,
    List.eq_nil_iff_forall_not_mem]
  simp only [hg.mem_chunkLoops]

/-- The loops may be visited in any order, and the gathered counts read in any order. -/
theorem min?_gathered (hg : g.Sound) {loops : List Nat} {values : List Count}
    (hloops : loops.Perm (g.chunkLoops f))
    (hvalues : values.Perm
      ((loops.foldl countHeader (∅, Session.new g p config)).1.toList.map Prod.snd)) :
    values.min? = (minChunkIterations (.new g p config) f).1 := by
  have hchunk : ∀ l ∈ loops, g.Chunk f l := fun l hl =>
    hg.mem_chunkLoops.mp (hloops.mem_iff.mp hl)
  -- another order may leave another loop's count at a line, so only the least one is compared
  calc values.min?
      = HeaderCounts.least (loops.foldl countHeader (∅, Session.new g p config)).1 :=
        Count.min?_congr fun c => hvalues.mem_iff
    _ = (loops.map ((Estimator.new p).answer g)).min? :=
        HeaderCounts.least_foldl hg (.refl _) hchunk
    _ = ((g.chunkLoops f).map ((Estimator.new p).answer g)).min? :=
        Count.min?_congr fun c => (hloops.map _).mem_iff
    _ = (minChunkIterations (.new g p config) f).1 :=
        (minChunkIterations_eq_min? hg (.refl _) f).symm

theorem answer_of_line (hg : g.Sound) {l k : Nat} (hl : g.Chunk f l) (hk : g.Chunk f k)
    (hline : (g.node? l).map Node.line = (g.node? k).map Node.line) :
    (Estimator.new p).answer g l = (Estimator.new p).answer g k := by
  obtain ⟨node, hnode⟩ := Graph.exists_node? (Graph.lt_of_isKind hl.1)
  obtain ⟨node', hnode'⟩ := Graph.exists_node? (Graph.lt_of_isKind hk.1)
  rw [hnode, hnode', Option.map_some, Option.map_some, Option.some.injEq] at hline
  exact Estimator.answer_chunk hg hl hk hnode hnode' hline

/-- In a session that has answered any questions, the least count by header line is the least of the
effective iterations of all chunking loops, and there is none exactly without such loops.  Visiting
the loops in another order, so that others of their lines come last, and reading the gathered
counts in another order gives the same least count, and so does attaching the children in another
order.  For chunking loops of one function have the same nearest loop around them, and those of one
line have the same effective iterations. -/
theorem minChunkIterations_collapses (calls : List Builder.Call) (p : Profile) (config : Config)
    (f : Nat) :
    let g := Graph.ofCalls calls
    let new := Session.new g p config
    let least := (minChunkIterations new f).1
    (∀ l, l ∈ g.chunkLoops f ↔ g.Chunk f l) ∧
    (∀ s, new.Follows s → (minChunkIterations s f).1 =
      ((g.chunkLoops f).map fun l => (s.effectiveIterations l).1).min?) ∧
    (least = none ↔ ∀ l, ¬g.Chunk f l) ∧
    (∀ (loops : List Nat) (values : List Count), loops.Perm (g.chunkLoops f) →
      values.Perm ((loops.foldl countHeader (∅, new)).1.toList.map Prod.snd) →
      values.min? = least) ∧
    (∀ es : Array Edge, es.Perm g.edges →
      (minChunkIterations (.new (g.reordered es) p config) f).1 = least) ∧
    ∀ l k, g.Chunk f l → g.Chunk f k →
      g.enclosingLoop? l = g.enclosingLoop? k ∧
      ((g.node? l).map Node.line = (g.node? k).map Node.line →
        (new.effectiveIterations l).1 = (new.effectiveIterations k).1) := by
  intro g new least
  have hg : g.Sound := Graph.sound_ofCalls calls
  refine ⟨fun l => hg.mem_chunkLoops, fun s hs => ?_, minChunkIterations_eq_none hg p config f,
    fun loops values => min?_gathered hg,
    fun es hes => minChunkIterations_reordered hg hes p config f,
    fun l k hl hk => ⟨?_, answer_of_line hg hl hk⟩⟩
  · -- what the session remembers are answers of a new estimator
    have hanswer : (fun l => (s.effectiveIterations l).1) = (Estimator.new p).answer g :=
      funext hs.answer
    rw [hanswer]
    exact minChunkIterations_eq_min? hg hs f
  · rw [hg.enclosingLoop?_chunk hl, hg.enclosingLoop?_chunk hk]

end Detector

end UnitGraph
