import Mathlib.Data.List.Forall2
import UnitGraph.Proofs.Detection.Headers
import UnitGraph.Proofs.Graph.Indexing

/-!
# What a detection run reports

The outcome of a function is read off the containment tree and the measured counts.  The verdicts
are asked of the loops under the function, in depth-first order; the counts are asked of the
chunking loops, and only whether the measured count is positive matters in the end.
-/

namespace UnitGraph

namespace Detector

variable {d : Detector} {g : Graph} {p : Profile} {s s' : Session} {f l : Nat} {ns : List Nat}

/-- The loop is the first one under the function, in depth-first order, that cannot be split. -/
def Blocks (d : Detector) (g : Graph) (f l : Nat) : Prop :=
  g.isKind l .loop ∧ ¬(d.verdicts g l).isParallelizable ∧
    ∃ before after, Preorder g.children [f] (before ++ l :: after) ∧
      ∀ m ∈ before, g.isKind m .loop → (d.verdicts g m).isParallelizable

structure Explains (d : Detector) (g : Graph) (p : Profile) (f : Nat) (o : Outcome) : Prop where
  node : o.node = f
  id : (g.node? f).map Node.id = some o.id
  matched : o.matched ↔
    ∀ l, g.isKind l .loop → Climbs g.parent? l f → (d.verdicts g l).isParallelizable
  blocked : o.blockingLoop.isSome ↔ ¬o.matched
  blocking : ∀ id, o.blockingLoop = some id ↔
    ∃ l node, d.Blocks g f l ∧ g.node? l = some node ∧ node.id = id
  minIterations : o.minIterations.isSome ↔ o.matched ∧ ∃ l, g.Chunk f l
  reported : o.reported ↔ o.matched ∧ (∃ l, g.Chunk f l) ∧
    ∀ l node, g.Chunk f l → g.node? l = some node → 1 ≤ p.get node.line

/-! ## The blocking loop -/

section Blocking

theorem stops_iff {m : Nat} :
    decide (g.isKind m .loop ∧ !(d.verdicts g m).isParallelizable) ↔
      ¬(g.isKind m .loop → (d.verdicts g m).isParallelizable) := by
  rw [decide_eq_true_iff, Bool.not_eq_true', ← Bool.not_eq_true, Classical.not_imp]

variable (hg : g.Sound) (hs : (Session.new g p d.config).Follows s) (hf : f < g.nodes.size)
include hg hs hf

/-- The search for a blocking loop runs along the depth-first order of the subtree. -/
theorem exists_findBlockingLoop_eq : ∃ below, Preorder g.children [f] below ∧
    d.findBlockingLoop s f =
      below.find? fun m => g.isKind m .loop ∧ !(d.verdicts g m).isParallelizable := by
  refine ⟨_, (SubtreeIndex.exact_build hg).subtree_preorder hf, ?_⟩
  rw [findBlockingLoop, hs.graph, hs.index]
  exact List.find?_filter

theorem findBlockingLoop_eq_none : d.findBlockingLoop s f = none ↔
    ∀ l, g.isKind l .loop → Climbs g.parent? l f → (d.verdicts g l).isParallelizable := by
  rcases exists_findBlockingLoop_eq hg hs hf with ⟨below, hbelow, heq⟩
  simp only [heq, List.find?_eq_none, stops_iff, not_not, hbelow.mem_single_iff hg.siblings]
  exact forall_congr' fun l => ⟨fun h hl hc => h hc hl, fun h hc hl => h hl hc⟩

theorem findBlockingLoop_eq_some : d.findBlockingLoop s f = some l ↔ d.Blocks g f l := by
  rcases exists_findBlockingLoop_eq hg hs hf with ⟨below, hbelow, heq⟩
  rw [heq, List.find?_eq_some_iff_append, Blocks, stops_iff, Classical.not_imp, and_assoc]
  refine and_congr_right fun _ => and_congr_right fun _ => ?_
  constructor
  · intro hin
    rcases hin with ⟨before, after, rfl, hbefore⟩
    refine ⟨before, after, hbelow, fun m hm => ?_⟩
    have hgo := hbefore m hm
    rwa [Bool.not_eq_true', ← Bool.not_eq_true, stops_iff, not_not] at hgo
  · intro hin
    rcases hin with ⟨before, after, hpre, hbefore⟩
    -- the two orders are one, so the loop splits both at the same place
    refine ⟨before, after, hbelow.unique hpre, fun m hm => ?_⟩
    rw [Bool.not_eq_true', ← Bool.not_eq_true, stops_iff, not_not]
    exact hbefore m hm

end Blocking

/-! ## One function -/

/-- A loop runs, whatever the session has remembered, exactly when its line was measured to. -/
theorem answer_pos (hs : (Session.new g p d.config).Follows s) {node : Node}
    (hl : g.node? l = some node) : 0 < s.answer l ↔ 1 ≤ p.get node.line := by
  rw [hs.answer]
  exact Estimator.answer_new_pos hl

/-- There is a least count if there is a chunking loop, and it is positive if all of their lines
were measured to run; what the loops around them count does not matter. -/
theorem minChunkIterations_spec (hg : g.Sound) (hs : (Session.new g p d.config).Follows s)
    (f : Nat) :
    ((minChunkIterations s f).1.isSome ↔ ∃ l, g.Chunk f l) ∧
    ((minChunkIterations s f).1.any (0 < ·) ↔
      (∃ l, g.Chunk f l) ∧
      ∀ l node, g.Chunk f l → g.node? l = some node → 1 ≤ p.get node.line) ∧
    s.Follows (minChunkIterations s f).2 := by
  rcases minChunkIterations_eq s f with ⟨counts, hof, heq, hfollows⟩
  have hgraph : s.graph = g := hs.graph
  have hmem : ∀ l, l ∈ g.chunkLoops f ↔ g.Chunk f l := fun _ => hg.mem_chunkLoops
  -- the chunking loops are nodes, so each of them has a line
  have hexists : (∃ l ∈ g.chunkLoops f, ∃ node, g.node? l = some node) ↔ ∃ l, g.Chunk f l := by
    constructor
    · intro hin
      rcases hin with ⟨l, hl, _⟩
      exact ⟨l, (hmem l).mp hl⟩
    · intro hin
      rcases hin with ⟨l, hl⟩
      exact ⟨l, (hmem l).mpr hl, Graph.exists_node? (Graph.lt_of_isKind hl.1)⟩
  rw [hgraph] at hof
  have hsome := hof.isSome_least
  have hpos := hof.least_pos (fun line => 1 ≤ p.get line) fun l node hl => by
    rw [hgraph] at hl
    exact answer_pos hs hl
  rw [hgraph, hexists] at hsome hpos
  rw [heq]
  refine ⟨hsome, hpos.trans (and_congr_right fun _ => ?_), hfollows⟩
  exact ⟨fun h l node hl => h l ((hmem l).mpr hl) node,
    fun h l hl node => h l node ((hmem l).mp hl)⟩

theorem evaluate_of_some (h : d.findBlockingLoop s f = some l) :
    d.evaluate s f =
      ({ node := f
         id := (s.graph.node? f).elim "" Node.id
         name := (s.graph.node? f).elim "" Node.displayName
         matched := false
         reported := false
         minIterations := none
         blockingLoop := (s.graph.node? l).map Node.id }, s) := by
  rw [evaluate, h]
  rfl

theorem evaluate_of_none (h : d.findBlockingLoop s f = none) :
    d.evaluate s f =
      ({ node := f
         id := (s.graph.node? f).elim "" Node.id
         name := (s.graph.node? f).elim "" Node.displayName
         matched := true
         reported := (minChunkIterations s f).1.any (0 < ·)
         minIterations := (minChunkIterations s f).1
         blockingLoop := none }, (minChunkIterations s f).2) := by
  rw [evaluate, h]
  rfl

theorem follows_evaluate (hg : g.Sound) (hs : (Session.new g p d.config).Follows s) (f : Nat) :
    s.Follows (d.evaluate s f).2 := by
  cases hblock : d.findBlockingLoop s f with
  | some l =>
    rw [evaluate_of_some hblock]
    exact .refl s
  | none =>
    rw [evaluate_of_none hblock]
    exact (minChunkIterations_spec hg hs f).2.2

theorem explains_of_none (hg : g.Sound) (hs : (Session.new g p d.config).Follows s)
    (hf : f < g.nodes.size) (hblock : d.findBlockingLoop s f = none) :
    d.Explains g p f (d.evaluate s f).1 := by
  rcases Graph.exists_node? hf with ⟨node, hnode⟩
  have hgraph : s.graph = g := hs.graph
  have hsome := fun l => findBlockingLoop_eq_some (l := l) hg hs hf
  rcases minChunkIterations_spec hg hs f with ⟨hleast, hpos, _⟩
  rw [evaluate_of_none hblock, hgraph, hnode]
  exact {
    node := rfl
    id := by rw [hnode]; rfl
    matched := iff_of_true rfl ((findBlockingLoop_eq_none hg hs hf).mp hblock)
    blocked := iff_of_false Bool.false_ne_true (not_not_intro rfl)
    blocking := fun id => by
      -- a loop that blocks would have been found
      refine iff_of_false (Option.some_ne_none id).symm ?_
      intro hin
      rcases hin with ⟨l, _, hl, _⟩
      rw [← hsome, hblock] at hl
      exact Option.some_ne_none l hl.symm
    minIterations := hleast.trans (and_iff_right rfl).symm
    reported := hpos.trans (and_iff_right rfl).symm }

/-- Nothing is counted for a function that does not match. -/
theorem explains_of_some (hg : g.Sound) (hs : (Session.new g p d.config).Follows s)
    (hf : f < g.nodes.size) (hblock : d.findBlockingLoop s f = some l) :
    d.Explains g p f (d.evaluate s f).1 := by
  rcases Graph.exists_node? hf with ⟨node, hnode⟩
  have hgraph : s.graph = g := hs.graph
  have hsome := fun l => findBlockingLoop_eq_some (l := l) hg hs hf
  have hl := (hsome l).mp hblock
  rcases Graph.exists_node? (Graph.lt_of_isKind hl.1) with ⟨loop, hloop⟩
  rw [evaluate_of_some hblock, hgraph, hnode, hloop]
  exact {
    node := rfl
    id := by rw [hnode]; rfl
    matched := by
      rw [← findBlockingLoop_eq_none hg hs hf, hblock]
      exact iff_of_false Bool.false_ne_true (Option.some_ne_none l)
    blocked := iff_of_true rfl Bool.false_ne_true
    blocking := fun id => by
      constructor
      · intro hid
        exact ⟨l, loop, hl, hloop, Option.some.inj hid⟩
      · intro hin
        -- only one loop blocks, so this is the one that was found
        rcases hin with ⟨k, node', hk, hnode', rfl⟩
        rw [← hsome, hblock] at hk
        rw [← Option.some.inj hk, hloop] at hnode'
        rw [← Option.some.inj hnode']
        rfl
    minIterations := iff_of_false Bool.false_ne_true fun h => Bool.false_ne_true h.1
    reported := iff_of_false Bool.false_ne_true fun h => Bool.false_ne_true h.1 }

theorem explains_evaluate (hg : g.Sound) (hs : (Session.new g p d.config).Follows s)
    (hf : f < g.nodes.size) : d.Explains g p f (d.evaluate s f).1 := by
  cases hblock : d.findBlockingLoop s f with
  | none => exact explains_of_none hg hs hf hblock
  | some l => exact explains_of_some hg hs hf hblock

/-! ## All functions -/

/-- Evaluating a list of functions explains each of them: what the session remembers from one
function changes nothing for the next. -/
theorem explains_evaluateEach (hg : g.Sound) (hs : (Session.new g p d.config).Follows s)
    (hns : ∀ n ∈ ns, n < g.nodes.size) :
    List.Forall₂ (d.Explains g p) ns (d.evaluateEach s ns).1 := by
  induction ns generalizing s with
  | nil => exact .nil
  | cons n ns ih =>
    rw [List.forall_mem_cons] at hns
    refine .cons (explains_evaluate hg hs hns.1) ?_
    exact ih (hs.trans (follows_evaluate hg hs n)) hns.2

/-- A run over a built graph reports every function in order.  Whether it matches, what blocks it,
whether it has a least count and whether it is reported follow from the containment tree, the
verdicts and the measured counts alone. -/
theorem run_explains (d : Detector) (calls : List Builder.Call) (p : Profile) :
    let g := Graph.ofCalls calls
    List.Forall₂ (d.Explains g p) g.functions (d.run g p).1.functions := by
  intro g
  refine explains_evaluateEach (Graph.sound_ofCalls calls) (.refl _) fun n hn => ?_
  exact Graph.lt_of_isKind (Graph.mem_ofKind.mp hn)

end Detector

end UnitGraph
