import UnitGraph.Proofs.Detection.Relabelling

/-!
# What a run writes, and what it never reads

A run writes a verdict on every function and touches nothing else.  What it finds out about a
function does not depend on the verdicts that were on the nodes before: with all of them taken off,
the graph gives the same report.  So however many runs came before, a run is what it is on the graph
as built.
-/

namespace UnitGraph

def Node.bare (node : Node) : Node := { node with decomposes := none }

def Graph.bare (g : Graph) : Graph := { g with nodes := g.nodes.map Node.bare }

def Node.judged (node : Node) (verdict : Bool) : Node :=
  if node.kind = .function then { node with decomposes := some verdict } else node

def Graph.judged (g : Graph) (verdict : Nat → Bool) : Graph :=
  { g with nodes := g.nodes.mapIdx fun n node => node.judged (verdict n) }

/-- The source of verdicts on loops does not look at what earlier runs have recorded. -/
def VerdictSource.IgnoresRecords (v : VerdictSource) : Prop :=
  ∀ g n, v g.bare n = v g n

namespace Node

theorem relabels_bare : Relabels bare :=
  ⟨fun _ => rfl, fun _ => rfl, fun _ => rfl, fun _ => rfl⟩

theorem bare_judged (node : Node) (verdict : Bool) : (node.judged verdict).bare = node.bare := by
  rw [judged]
  split <;> rfl

theorem judged_judged (node : Node) (verdict verdict' : Bool) :
    (node.judged verdict).judged verdict' = node.judged verdict' := by
  by_cases hk : node.kind = .function
  · have hk' : { node with decomposes := some verdict }.kind = .function := hk
    rw [judged, judged, judged, if_pos hk, if_pos hk, if_pos hk']
  · rw [judged, judged, judged, if_neg hk, if_neg hk]

end Node

/-! ## Without the verdicts -/

namespace Graph

variable {g : Graph} {n : Nat} {verdict verdict' : Nat → Bool}

theorem eq_of_node? {g' : Graph} (hnode : ∀ n, g'.node? n = g.node? n) (hedges : g'.edges = g.edges)
    (hids : g'.ids = g.ids) : g' = g := by
  rcases g with ⟨nodes, edges, ids⟩
  rcases g' with ⟨nodes', edges', ids'⟩
  rw [Graph.mk.injEq]
  exact ⟨Array.ext_getElem? hnode, hedges, hids⟩

theorem node?_bare (g : Graph) (n : Nat) : g.bare.node? n = (g.node? n).map Node.bare := by
  simp [node?, bare]

theorem functions_bare (g : Graph) : g.bare.functions = g.functions :=
  functions_mapNodes Node.relabels_bare g

theorem sound_bare : g.bare.Sound ↔ g.Sound :=
  sound_mapNodes Node.relabels_bare

/-! ## With the verdicts of a run -/

theorem node?_judged (g : Graph) (verdict : Nat → Bool) (n : Nat) :
    (g.judged verdict).node? n = (g.node? n).map (·.judged (verdict n)) := by
  simp [node?, judged]

theorem bare_judged (g : Graph) (verdict : Nat → Bool) : (g.judged verdict).bare = g.bare := by
  rw [bare, bare, judged, Graph.mk.injEq]
  exact ⟨Array.ext (by simp) fun n _ _ => by simp [Node.bare_judged], rfl, rfl⟩

/-- A later verdict takes the place of an earlier one. -/
theorem judged_judged (g : Graph) (verdict verdict' : Nat → Bool) :
    (g.judged verdict).judged verdict' = g.judged verdict' := by
  simp only [judged, Array.mapIdx_mapIdx, Function.comp_def, Node.judged_judged]

end Graph

/-! ## One run -/

namespace Detector

variable {d : Detector} {g : Graph} {p : Profile} {config : Config} {n : Nat}

/-- Nothing that the evaluation of a function reads is a verdict of an earlier run. -/
theorem evaluate_bare (hg : g.Sound) (hd : d.verdicts.IgnoresRecords) (p : Profile)
    (config : Config) (n : Nat) :
    (d.evaluate (.new g.bare p config) n).1 = (d.evaluate (.new g p config) n).1 :=
  evaluate_mapNodes hg Node.relabels_bare (fun l _ => hd g l) p config n

/-! ## Recording -/

def noted (g : Graph) (n : Nat) (verdict : Bool) : Graph :=
  { g with nodes := g.nodes.modify n ({ · with decomposes := some verdict }) }

theorem annotate_of_lt (verdict : Bool) (h : n < g.nodes.size) :
    g.annotate n verdict = .ok (noted g n verdict) := by
  rw [Graph.annotate, if_pos h, noted]

theorem record_of_lt {o : Outcome} (h : o.node < g.nodes.size) :
    record g o = noted g o.node o.matched := by
  rw [record, annotate_of_lt o.matched h]

theorem size_noted (g : Graph) (n : Nat) (verdict : Bool) :
    (noted g n verdict).nodes.size = g.nodes.size := by
  rw [noted, Array.size_modify]

theorem node?_noted (g : Graph) (m : Nat) (verdict : Bool) (n : Nat) :
    (noted g m verdict).node? n = (g.node? n).map fun node =>
      if n = m then { node with decomposes := some verdict } else node := by
  rw [noted, Graph.node?, Graph.node?, Array.getElem?_modify]
  by_cases h : m = n
  · simp only [h, if_true]
  · simp only [h, Ne.symm h, if_false, Option.map_id']

/-- Recording outcomes one by one never fails, so nothing is swallowed. -/
theorem foldlM_annotate (os : List Outcome) (hos : ∀ o ∈ os, o.node < g.nodes.size) :
    os.foldlM (fun g o => g.annotate o.node o.matched) g = .ok (os.foldl record g) := by
  induction os generalizing g with
  | nil => rfl
  | cons o os ih =>
    rw [List.forall_mem_cons] at hos
    rw [List.foldlM_cons, annotate_of_lt o.matched hos.1, List.foldl_cons, record_of_lt hos.1]
    exact ih fun o' ho' => by rw [size_noted]; exact hos.2 o' ho'

theorem foldl_record (verdict : Nat → Bool) (os : List Outcome)
    (hos : ∀ o ∈ os, o.node < g.nodes.size ∧ o.matched = verdict o.node) :
    (os.foldl record g).edges = g.edges ∧ (os.foldl record g).ids = g.ids ∧
      ∀ n, (os.foldl record g).node? n = (g.node? n).map fun node =>
        if n ∈ os.map Outcome.node then { node with decomposes := some (verdict n) } else node := by
  -- the graph is general: each verdict is noted on what the earlier ones have left
  induction os generalizing g with
  | nil => simp
  | cons o os ih =>
    rw [List.forall_mem_cons] at hos
    rw [List.foldl_cons, record_of_lt hos.1.1]
    obtain ⟨hedges, hids, hnode⟩ := ih (g := noted g o.node o.matched) fun o' ho' => by
      rw [size_noted]
      exact hos.2 o' ho'
    refine ⟨hedges, hids, fun n => ?_⟩
    rw [hnode, node?_noted, Option.map_map, hos.1.2]
    refine congrArg (Option.map · _) (funext fun node => ?_)
    -- noting a verdict twice is noting it once, as both are the same
    by_cases hn : n = o.node
    · simp only [Function.comp_apply, hn, if_true, List.map_cons, List.mem_cons, true_or, ite_self]
    · simp only [Function.comp_apply, hn, if_false, List.map_cons, List.mem_cons, false_or]

theorem functions_run_spec (d : Detector) (g : Graph) (p : Profile) :
    ∀ o ∈ (d.run g p).1.functions, o.node < g.nodes.size ∧
      o.matched = (d.evaluate (.new g p d.config) o.node).1.matched := by
  rw [functions_run, List.forall_mem_map]
  exact fun n hn => ⟨Graph.lt_of_isKind (Graph.mem_ofKind.mp hn), rfl⟩

/-- A run leaves the graph with the verdict of each function on it, and all else as it was. -/
theorem run_snd (d : Detector) (g : Graph) (p : Profile) :
    (d.run g p).2 = g.judged fun n => (d.evaluate (.new g p d.config) n).1.matched := by
  obtain ⟨hedges, hids, hnode⟩ := foldl_record
    (fun n => (d.evaluate (.new g p d.config) n).1.matched) _ (functions_run_spec d g p)
  refine Graph.eq_of_node? (fun n => ?_) hedges hids
  rw [Graph.node?_judged]
  refine (hnode n).trans (Option.map_congr fun node hn => ?_)
  have hkind : n ∈ g.functions ↔ node.kind = .function := by
    rw [Graph.functions, Graph.mem_ofKind, Graph.isKind_iff, hn]
    simp
  rw [map_node_functions_run, Node.judged]
  simp only [hkind]

theorem run_eq (d : Detector) (g : Graph) (p : Profile) : d.run g p =
    (⟨(d.run g p).1.functions, (((d.run g p).2.findFunction? d.config.mainFunction).bind
      (d.run g p).2.node?).map Node.id⟩, (d.run g p).2) := rfl

end Detector

/-! ## Several runs -/

def Graph.afterRuns (g : Graph) (runs : List (Detector × Profile)) : Graph :=
  runs.foldl (fun g (d, p) => (d.run g p).2) g

namespace Graph

variable {g g' : Graph}

structure Rejudged (g g' : Graph) : Prop where
  bare : g'.bare = g.bare
  judged : ∀ verdict, g'.judged verdict = g.judged verdict

theorem Rejudged.afterRuns (h : g.Rejudged g') (runs : List (Detector × Profile)) :
    g.Rejudged (g'.afterRuns runs) := by
  induction runs generalizing g' with
  | nil => exact h
  | cons run runs ih =>
    have hnext : g.Rejudged (run.1.run g' run.2).2 := by
      rw [Detector.run_snd]
      refine ⟨(bare_judged _ _).trans h.bare, fun verdict => ?_⟩
      exact (judged_judged _ _ _).trans (h.judged verdict)
    exact ih hnext

/-- On a graph that was written to by runs a run is what it is on the graph as it was. -/
theorem Rejudged.run_eq (h : g.Rejudged g') (hg : g.Sound) {d : Detector}
    (hd : d.verdicts.IgnoresRecords) (p : Profile) : d.run g' p = d.run g p := by
  have hg' : g'.Sound := by rwa [← sound_bare, h.bare, sound_bare]
  have hevaluate : ∀ n,
      (d.evaluate (.new g' p d.config) n).1 = (d.evaluate (.new g p d.config) n).1 := by
    intro n
    rw [← Detector.evaluate_bare hg' hd, h.bare, Detector.evaluate_bare hg hd]
  have hfunctions : (d.run g' p).1.functions = (d.run g p).1.functions := by
    rw [Detector.functions_run, Detector.functions_run, ← functions_bare, h.bare, functions_bare]
    exact List.map_congr_left fun n _ => hevaluate n
  have hafter : (d.run g' p).2 = (d.run g p).2 := by
    simp only [Detector.run_snd, h.judged, hevaluate]
  rw [Detector.run_eq, hfunctions, hafter, ← Detector.run_eq]

end Graph

/-! ## What a run does -/

namespace Detector

variable {d : Detector} {g : Graph} {p : Profile} {n : Nat}

/-- What a run does to a graph and what it reports, whatever was run before. -/
structure RunsAlone (d : Detector) (g : Graph) (p : Profile) : Prop where
  edges : (d.run g p).2.edges = g.edges
  ids : (d.run g p).2.ids = g.ids
  size : (d.run g p).2.nodes.size = g.nodes.size
  /-- A node that is no function keeps even what is recorded on it. -/
  others : ∀ n node, g.node? n = some node → node.kind ≠ .function →
    (d.run g p).2.node? n = some node
  functions : (d.run g p).1.functions.map Outcome.node = g.functions
  distinct : ((d.run g p).1.functions.map Outcome.id).Nodup
  recorded : (d.run g p).1.functions.foldlM (fun g o => g.annotate o.node o.matched) g =
    .ok (d.run g p).2
  outcome : ∀ n node, g.node? n = some node → node.kind = .function →
    ∃ o ∈ (d.run g p).1.functions, o.node = n ∧ o.id = node.id ∧
      (d.run g p).2.node? n = some { node with decomposes := some o.matched } ∧
      (d.run g p).1.isReported node.id = o.reported
  lookup : ∀ id o, (d.run g p).1.outcome? id = some o ↔
    o ∈ (d.run g p).1.functions ∧ o.id = id
  alone : ∀ runs, d.run (g.afterRuns runs) p = d.run g p

/-- A run records the verdict of every function on it, which never fails, and changes nothing else.
It reports one outcome for each function, in order and under its identifier.  Runs that came before,
of whatever detectors with whatever profiles, change neither the report nor what is left. -/
theorem run_alone (calls : List Builder.Call) (d : Detector) (p : Profile)
    (hd : d.verdicts.IgnoresRecords) : d.RunsAlone (.ofCalls calls) p := by
  have hg := Graph.sound_ofCalls calls
  -- only soundness is used from here on
  generalize Graph.ofCalls calls = g at hg
  have hafter := run_snd d g p
  exact {
    edges := by rw [hafter]; rfl
    ids := by rw [hafter]; rfl
    size := by rw [hafter, Graph.judged, Array.size_mapIdx]
    others := fun n node hn hk => by
      rw [hafter, Graph.node?_judged, hn, Option.map_some, Node.judged, if_neg hk]
    functions := map_node_functions_run d g p
    distinct := nodup_ids_run hg d p
    recorded := foldlM_annotate _ fun o ho => (functions_run_spec d g p o ho).1
    outcome := fun n node hn hk => by
      have hmem : (d.evaluate (.new g p d.config) n).1 ∈ (d.run g p).1.functions :=
        mem_functions_run.mpr ⟨n, Graph.isKind_iff.mpr ⟨node, hn, hk⟩, rfl⟩
      have hid := id_evaluate (d := d) (p := p) hg hn
      refine ⟨_, hmem, rfl, hid, ?_, ?_⟩
      · rw [hafter, Graph.node?_judged, hn, Option.map_some, Node.judged, if_pos hk]
      · rw [Report.isReported, (outcome?_eq_some hg).mpr ⟨hmem, hid⟩, Option.any_some]
    lookup := fun id o => outcome?_eq_some hg
    alone := fun runs => by
      -- earlier runs change nothing but verdicts, which the detector does not look at
      have hjudged : g.Rejudged g := ⟨rfl, fun _ => rfl⟩
      exact (hjudged.afterRuns runs).run_eq hg hd p }

end Detector

theorem ignoresRecords_storedVerdict : VerdictSource.IgnoresRecords storedVerdict := by
  intro g n
  rw [storedVerdict, storedVerdict, Graph.node?_bare, Option.map_map]
  rfl

theorem SuitabilityScores.ignoresRecords_verdict (scores : SuitabilityScores) :
    VerdictSource.IgnoresRecords scores.verdict := by
  intro g n
  rw [verdict, verdict, ignoresRecords_storedVerdict, Graph.node?_bare, Option.bind_map]
  rfl

/-- A function over a loop that may be split, and a detector that goes by a score for that loop. -/
theorem Detector.run_alone_scored :
    VerdictSource.IgnoresRecords (withScores {} [("l", 0.5)]).verdicts ∧
    (withScores {} [("l", 0.5)]).RunsAlone (.ofCalls [
      .node { id := "f", line := ⟨1, 1⟩, payload := .function "main", decomposes := some false },
      .node { id := "l", line := ⟨1, 2⟩, payload := .loop true false },
      .child 0 1]) (.ofList [(⟨1, 2⟩, 8)]) := by
  have hd := SuitabilityScores.ignoresRecords_verdict (.ofList (Config.threshold {}) [("l", 0.5)])
  exact ⟨hd, run_alone _ _ _ hd⟩

end UnitGraph
