import UnitGraph.Proofs.Analysis.Locality
import UnitGraph.Proofs.Detection.Renumbering
import UnitGraph.Proofs.Graph.Additions

/-!
# The analysis of a function is local

What a session says about a node is read off the nodes below it and the loop around it.  So it says
the same when the graph has grown elsewhere, or when the node was attached to another one, as long
as nothing was attached below and the loop around is still the same.  Of a profile, the evaluation
of a function reads the lines of its chunking loops and of the loop around it.
-/

namespace UnitGraph

/-- The question is about one node, and verdicts come from a source that reads them off the loops,
as stored verdicts and scores do; or it is none, and only another profile is installed. -/
inductive Query.LocalTo (f : Nat) : Query → Prop
  | effectiveIterations : LocalTo f (.effectiveIterations f)
  | workload : LocalTo f (.workload f)
  | totalInstructions : LocalTo f (.totalInstructions f)
  | findBlockingLoop {d : Detector} (hd : d.verdicts.ReadsNode) : LocalTo f (.findBlockingLoop d f)
  | matchesPattern {d : Detector} (hd : d.verdicts.ReadsNode) : LocalTo f (.matchesPattern d f)
  | minChunkIterations : LocalTo f (.minChunkIterations f)
  | passesChunkLimit : LocalTo f (.passesChunkLimit f)
  | evaluate {d : Detector} (hd : d.verdicts.ReadsNode) : LocalTo f (.evaluate d f)
  | resetProfile (p : Profile) : LocalTo f (.resetProfile p)

/-- An evaluation reads the function, the loop that blocks it and the least count of its chunking
loops. -/
theorem Detector.evaluate_congr {d : Detector} {s s' : Session} {f : Nat}
    (hblocking : d.findBlockingLoop s' f = d.findBlockingLoop s f)
    (hleast : (minChunkIterations s' f).1 = (minChunkIterations s f).1)
    (hnode : s'.graph.node? f = s.graph.node? f)
    (hloop : ∀ l, d.findBlockingLoop s f = some l → s'.graph.node? l = s.graph.node? l) :
    (d.evaluate s' f).1 = (d.evaluate s f).1 := by
  cases hblock : d.findBlockingLoop s f with
  | none =>
    rw [hblock] at hblocking
    rw [evaluate_of_none hblock, evaluate_of_none hblocking, hnode, hleast]
  | some l =>
    rw [hblock] at hblocking
    rw [evaluate_of_some hblock, evaluate_of_some hblocking, hnode, hloop l hblock]

namespace Graph

variable {g g' : Graph} {f l : Nat} {d : Detector}

theorem isKind_of_enclosingLoop? (h : g.enclosingLoop? f = some l) : g.isKind l .loop := by
  unfold enclosingLoop? at h
  have hl := List.find?_some h
  exact hl

theorem Chunk.climbs (h : g.Chunk f l) : Climbs g.parent? l f := by
  rcases h.2 with hp | ⟨k, hp, _, hk⟩
  · exact .single hp
  · exact .head hp (.single hk)

namespace Keeps

/-! ## Detection -/

theorem findBlockingLoop (h : g.Keeps g' f) (hg : g.Sound) (hg' : g'.Sound)
    (hd : d.verdicts.ReadsNode) (p : Profile) (config : Config) :
    d.findBlockingLoop (.new g' p config) f = d.findBlockingLoop (.new g p config) f := by
  rw [Detector.findBlockingLoop, Detector.findBlockingLoop, ← List.head?_filter,
    ← List.head?_filter]
  change (((SubtreeIndex.build g').subtreeOfKind g' f .loop).filter _).head? = _
  rw [h.subtreeOfKind hg hg']
  apply congrArg List.head?
  apply List.filter_congr
  intro l hl
  change (!(d.verdicts g' l).isParallelizable) = !(d.verdicts g l).isParallelizable
  rw [hd g g' l l (h.node?_of_mem hg hl)]

theorem minChunkIterations (h : g.Keeps g' f) (hg : g.Sound) (hg' : g'.Sound) (p : Profile)
    (config : Config) : (Detector.minChunkIterations (.new g' p config) f).1 =
      (Detector.minChunkIterations (.new g p config) f).1 := by
  rw [Detector.minChunkIterations_eq_min? hg (.refl _),
    Detector.minChunkIterations_eq_min? hg' (.refl _), h.chunkLoops hg hg']
  apply congrArg List.min?
  apply List.map_congr_left
  intro l hl
  exact (h.below hg hg' (hg.mem_chunkLoops.mp hl).climbs).answer p

theorem evaluate (h : g.Keeps g' f) (hg : g.Sound) (hg' : g'.Sound) (hd : d.verdicts.ReadsNode)
    (p : Profile) (config : Config) :
    (d.evaluate (.new g' p config) f).1 = (d.evaluate (.new g p config) f).1 := by
  apply Detector.evaluate_congr (h.findBlockingLoop hg hg' hd p config)
    (h.minChunkIterations hg hg' p config) (h.node f .refl)
  intro l hl
  exact h.node?_of_mem hg (List.mem_of_find?_eq_some hl)

/-! ## Questions -/

theorem askNew (h : g.Keeps g' f) (hg : g.Sound) (hg' : g'.Sound) {q : Query} (hq : q.LocalTo f)
    (config : Config) (p : Profile) :
    Session.askNew g' config p q = Session.askNew g config p q := by
  -- each question is settled by one lemma on what it reads below the node
  cases hq with
  | effectiveIterations => exact congrArg Reply.count (h.answer p)
  | workload => exact congrArg Reply.workload (h.estimate hg hg' config.markers p)
  | totalInstructions => exact congrArg Reply.count (h.totalInstructions hg hg')
  | findBlockingLoop hd => exact congrArg Reply.loop (h.findBlockingLoop hg hg' hd p config)
  | matchesPattern hd =>
    exact congrArg (fun l : Option Nat => Reply.decision l.isNone)
      (h.findBlockingLoop hg hg' hd p config)
  | minChunkIterations => exact congrArg Reply.least (h.minChunkIterations hg hg' p config)
  | passesChunkLimit =>
    exact congrArg (fun least : Option Count => Reply.decision (least.any (0 < ·)))
      (h.minChunkIterations hg hg' p config)
  | evaluate hd =>
    exact congrArg (fun o => Reply.outcomes [o]) (h.evaluate hg hg' hd p config)
  | resetProfile => rfl

end Keeps

end Graph

/-- Sessions over two graphs reply alike to a series of questions if new ones do to each of them. -/
theorem Session.askAll_congr {g g' : Graph} {config : Config} {qs : List Query}
    (h : ∀ q ∈ qs, ∀ p, askNew g' config p q = askNew g config p q) (p : Profile) :
    (new g' p config).askAll qs = (new g p config).askAll qs := by
  rw [askAll_of_follows (.refl _), askAll_of_follows (.refl _)]
  induction qs generalizing p with
  | nil => rfl
  | cons q qs ih =>
    rw [List.forall_mem_cons] at h
    rw [askEachNew, askEachNew, h.1 p, ih h.2]

/-! ## Further calls -/

namespace Builder

/-- The calls attach nothing to the node or below it, and the loop around it is the same after
them. -/
structure Spares (b : Builder) (more : List Call) (f : Nat) : Prop where
  exists_node : f < b.graph.nodes.size
  apart : ∀ p c, (p, c) ∈ b.attachments more → p ∉ (SubtreeIndex.build b.graph).subtree f
  loop : (b.run more).2.graph.enclosingLoop? f = b.graph.enclosingLoop? f

theorem Sound.keeps_run {b : Builder} (hb : b.Sound) {more : List Call} {f : Nat}
    (h : b.Spares more f) : b.graph.Keeps (b.run more).2.graph f where
  node n hn := hb.node?_run more (hb.graph.forest.lt_of_climbs_of_lt hn h.exists_node)
  children n hn := by
    -- children attached by the later calls would lie in the subtree, where none may be
    rw [hb.children_run more n]
    have hnone : (b.attachments more).filter (·.1 = n) = [] := by
      rw [List.filter_eq_nil_iff]
      intro pc hin hp
      apply h.apart pc.1 pc.2 hin
      rw [of_decide_eq_true hp, (SubtreeIndex.exact_build hb.graph).mem_subtree hb.graph]
      exact ⟨h.exists_node, hn⟩
    rw [hnone, List.map_nil, List.append_nil]
  loop := h.loop
  around l hl := by
    exact hb.node?_run more (Graph.lt_of_isKind (Graph.isKind_of_enclosingLoop? hl))

end Builder

/-! ## Profiles -/

/-- The profiles agree on the lines of the chunking loops of the function and of the loop around
it. -/
structure Graph.SameCounts (g : Graph) (f : Nat) (p q : Profile) : Prop where
  chunk : ∀ l node, g.Chunk f l → g.node? l = some node → q.get node.line = p.get node.line
  around : ∀ l node, g.enclosingLoop? f = some l → g.node? l = some node →
    q.get node.line = p.get node.line

namespace Graph.SameCounts

variable {g : Graph} {f l : Nat} {p q : Profile}

theorem raw (h : ∀ node, g.node? l = some node → q.get node.line = p.get node.line) :
    (Estimator.new q).raw g l = (Estimator.new p).raw g l := by
  rw [Estimator.raw, Estimator.raw]
  cases hnode : g.node? l with
  | none => rfl
  | some node => exact h node hnode

theorem answer (h : g.SameCounts f p q) (hg : g.Sound) (hf : g.isKind f .function)
    (hl : g.Chunk f l) : (Estimator.new q).answer g l = (Estimator.new p).answer g l := by
  have hraw : (Estimator.new q).raw g l = (Estimator.new p).raw g l :=
    raw fun node => h.chunk l node hl
  have hloop : ¬g.isKind f .loop := fun hloop => nomatch isKind_unique hf hloop
  have hparent : (Estimator.new q).parent g l = (Estimator.new p).parent g l := by
    -- all chunking loops are in the loop that is around the function
    rw [Estimator.parent, Estimator.parent, hg.enclosingLoop?_chunk hl, if_neg hloop]
    cases hk : g.enclosingLoop? f with
    | none => rfl
    | some k => exact congrArg (max · 1) (raw fun node => h.around k node hk)
  rw [Estimator.answer_new, Estimator.answer_new, hraw, hparent]

theorem evaluate (h : g.SameCounts f p q) (hg : g.Sound) (hf : g.isKind f .function)
    (d : Detector) (config : Config) :
    (d.evaluate (.new g q config) f).1 = (d.evaluate (.new g p config) f).1 := by
  have hleast : (Detector.minChunkIterations (.new g q config) f).1 =
      (Detector.minChunkIterations (.new g p config) f).1 := by
    rw [Detector.minChunkIterations_eq_min? hg (.refl _),
      Detector.minChunkIterations_eq_min? hg (.refl _)]
    apply congrArg List.min?
    apply List.map_congr_left
    intro l hl
    exact h.answer hg hf (hg.mem_chunkLoops.mp hl)
  -- the search for a blocking loop never looks at the profile
  exact Detector.evaluate_congr rfl hleast rfl fun _ _ => rfl

end Graph.SameCounts

/-! ## One node of a built graph -/

/-- Calls that spare a node leave its subtree as it was, node by node, and the replies to any series
of questions about it.  With profiles that agree on the lines of its chunking loops and of the loop
around it, a function is evaluated alike. -/
theorem Builder.run_local (calls : List Call) (f : Nat) :
    let b := (Builder.empty.run calls).2
    let g := b.graph
    (∀ more, b.Spares more f →
      let g' := (b.run more).2.graph
      (SubtreeIndex.build g').subtree f = (SubtreeIndex.build g).subtree f ∧
      ∀ config p qs, (∀ q ∈ qs, q.LocalTo f) →
        (Session.new g' p config).askAll qs = (Session.new g p config).askAll qs) ∧
    (g.isKind f .function → ∀ d config p q, g.SameCounts f p q →
      (Detector.evaluate d (.new g q config) f).1 = (d.evaluate (.new g p config) f).1) := by
  intro b g
  have hb : b.Sound := sound_run calls
  constructor
  · intro more hmore g'
    have hg' : g'.Sound := (hb.run more).graph
    have hkeeps : g.Keeps g' f := hb.keeps_run hmore
    refine ⟨hkeeps.subtree hb.graph hg', fun config p qs hqs => ?_⟩
    -- questions in a row answer as each would in a session of its own
    apply Session.askAll_congr
    intro q hq p
    exact hkeeps.askNew hb.graph hg' (hqs q hq) config p
  · intro hf d config p q hsame
    exact hsame.evaluate hb.graph hf d config

/-- A function over a loop, then attached to a new function; and a profile that has, besides, the
count of a line where neither of them begins. -/
theorem Builder.run_local_moved :
    let b := (Builder.empty.run [
      .node { id := "f", line := ⟨1, 1⟩, payload := .function "f" },
      .node { id := "l", line := ⟨1, 2⟩, payload := .loop true false },
      .child 0 1]).2
    let more : List Call := [
      .node { id := "main", line := ⟨1, 9⟩, payload := .function "main" },
      .child 2 0]
    let p := Profile.ofList [(⟨1, 2⟩, 8)]
    let q := Profile.ofList [(⟨1, 2⟩, 8), (⟨1, 9⟩, 3)]
    let d := Detector.withScores {} [("l", 0.5)]
    b.Spares more 0 ∧ b.graph.isKind 0 .function ∧ b.graph.SameCounts 0 p q ∧
    (Session.new (b.run more).2.graph p {}).askAll [.evaluate d 0, .workload 0] =
      (Session.new b.graph p {}).askAll [.evaluate d 0, .workload 0] ∧
    (d.evaluate (.new b.graph q {}) 0).1 = (d.evaluate (.new b.graph p {}) 0).1 := by
  intro b more p q d
  -- the run in full, so that the questions below are decided on a record
  have hb : b = ⟨⟨#[⟨"f", ⟨1, 1⟩, .function "f", none⟩, ⟨"l", ⟨1, 2⟩, .loop true false, none⟩],
      #[⟨0, 1, .child⟩], (∅ : Std.ExtHashMap String Nat).insert "f" 0 |>.insert "l" 1⟩,
      (∅ : Std.ExtHashMap Nat Nat).insert 1 0⟩ := by
    simp [b, run, call, addNode, addChild, empty, Graph.empty, idOf, Graph.require, Graph.node?,
      Except.map, bind, Except.bind, lineage, climb, pushEdge, pure, Except.pure]
  have hattached : b.attachments more = [(2, 0)] := by
    simp [hb, more, attachments, attachment?, call, addNode, addChild, idOf, Graph.require,
      Graph.node?, Except.map, bind, Except.bind, lineage, climb, pushEdge, pure, Except.pure]
  have hloop : (b.run more).2.graph.enclosingLoop? 0 = none := by
    simp [hb, more, run, call, addNode, addChild, idOf, Graph.require,
      Graph.node?, Except.map, bind, Except.bind, lineage, climb, pushEdge, pure, Except.pure]
    rfl
  have hg : b.graph.Sound := (sound_run _).graph
  -- the later call attaches `f` itself, and `main` is not below it
  have hspares : b.Spares more 0 := by
    refine ⟨by rw [hb]; decide, fun p c hin hsub => ?_, by rw [hloop, hb]; rfl⟩
    rw [hattached, List.mem_singleton, Prod.mk.injEq] at hin
    rw [hin.1, (SubtreeIndex.exact_build hg).mem_subtree hg] at hsub
    exact absurd (hsub.2.eq_of_none (by rw [hb]; rfl)) (by decide)
  have hf : b.graph.isKind 0 .function := by
    rw [hb]
    decide
  have hlines : ∀ n node, b.graph.node? n = some node → q.get node.line = p.get node.line := by
    intro n node hn
    have hmem : node ∈ b.graph.nodes := Array.mem_of_getElem? hn
    rw [hb] at hmem
    simp only [List.mem_toArray, List.mem_cons, List.not_mem_nil, or_false] at hmem
    rcases hmem with rfl | rfl
    · decide
    · decide
  have hsame : b.graph.SameCounts 0 p q :=
    ⟨fun l node _ hn => hlines l node hn, fun l node _ hn => hlines l node hn⟩
  have hlocal := run_local [
      .node { id := "f", line := ⟨1, 1⟩, payload := .function "f" },
      .node { id := "l", line := ⟨1, 2⟩, payload := .loop true false },
      .child 0 1] 0
  refine ⟨hspares, hf, hsame, (hlocal.1 more hspares).2 {} p _ ?_, hlocal.2 hf d {} p q hsame⟩
  have hd : d.verdicts.ReadsNode := SuitabilityScores.readsNode_verdict _
  rw [List.forall_mem_cons, List.forall_mem_singleton]
  exact ⟨.evaluate hd, .workload⟩

end UnitGraph
