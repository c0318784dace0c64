import UnitGraph.Proofs.Detection.Renumbering
import UnitGraph.Proofs.Graph.Loading

/-!
# The order of the records does not matter

A snapshot lists nodes and edges one after the other.  In another order the records are accepted or
refused as before, and every answer about a node of a given identifier stays the same.  What the
order decides is the order of lists, and which of several loops is named as blocking.
-/

namespace UnitGraph

namespace Graph

def Twins (g g' : Graph) (n n' : Nat) : Prop :=
  ∃ id, g.byId? id = some n ∧ g'.byId? id = some n'

def parentId? (g : Graph) (n : Nat) : Option String :=
  ((g.parent? n).bind g.node?).map Node.id

/-- The graphs have nodes of the same identifiers, and such nodes get the same answers.  Verdicts on
loops are those stored on them or those of suitability scores. -/
structure AnswersAlike (g g' : Graph) : Prop where
  ids : ∀ id, (g'.byId? id).isSome = (g.byId? id).isSome
  node : ∀ n n', g.Twins g' n n' → g'.node? n' = g.node? n
  parentId : ∀ n n', g.Twins g' n n' → g'.parentId? n' = g.parentId? n
  effectiveIterations : ∀ n n', g.Twins g' n n' → ∀ p config,
    ((Session.new g' p config).effectiveIterations n').1 =
      ((Session.new g p config).effectiveIterations n).1
  workload : ∀ n n', g.Twins g' n n' → ∀ p config,
    ((Session.new g' p config).workload n').1 = ((Session.new g p config).workload n).1
  totalInstructions : ∀ n n', g.Twins g' n n' → ∀ p config,
    (Session.new g' p config).totalInstructions n' = (Session.new g p config).totalInstructions n
  hasDependency : ∀ s s' t t', g.Twins g' s s' → g.Twins g' t t' →
    g'.classifier.hasDependency s' t' = g.classifier.hasDependency s t
  hasDependencyIgnoringBenign : ∀ s s' t t' L L',
    g.Twins g' s s' → g.Twins g' t t' → g.Twins g' L L' →
    g'.classifier.hasDependencyIgnoringBenign s' t' L' =
      g.classifier.hasDependencyIgnoringBenign s t L
  nonBenignDependencies : ∀ n n' L L', g.Twins g' n n' → g.Twins g' L L' → ∀ id,
    (∃ m ∈ g'.classifier.nonBenignDependencies n' L', g'.byId? id = some m) ↔
      ∃ m ∈ g.classifier.nonBenignDependencies n L, g.byId? id = some m
  outcome : ∀ d : Detector,
    (d.verdicts = storedVerdict ∨ ∃ scores : SuitabilityScores, d.verdicts = scores.verdict) →
    ∀ p id n, g.byId? id = some n → g.isKind n .function →
    ∃ o o', (d.run g p).1.outcome? id = some o ∧ (d.run g' p).1.outcome? id = some o' ∧ o.Alike o'

namespace Renumbered

variable {σ : Equiv.Perm Nat} {g g' : Graph} {n n' : Nat}

theorem eq_of_twins (h : Renumbered σ g g') (hn : g.Twins g' n n') : n' = σ n := by
  rcases hn with ⟨id, hid, hid'⟩
  rw [h.byId, hid] at hid'
  exact (Option.some.inj hid').symm

theorem parentId? (h : Renumbered σ g g') (hg : g.Sound) (n : Nat) :
    g'.parentId? (σ n) = g.parentId? n := by
  rw [Graph.parentId?, Graph.parentId?, h.parent? hg]
  cases g.parent? n with
  | none => rfl
  | some p => exact congrArg (Option.map Node.id) (h.node p)

theorem answersAlike (h : Renumbered σ g g') (hg : g.Sound) : g.AnswersAlike g' where
  ids id := by rw [h.byId, Option.isSome_map]
  node n n' hn := by rw [h.eq_of_twins hn, h.node]
  parentId n n' hn := by rw [h.eq_of_twins hn, h.parentId? hg]
  effectiveIterations n n' hn p config := by
    rw [h.eq_of_twins hn]
    exact h.answer hg p n
  workload n n' hn p config := by
    rw [h.eq_of_twins hn]
    rcases hn with ⟨id, hid, _⟩
    rcases (hg.ids id n).mp hid with ⟨node, hnode, _⟩
    exact h.estimate hg config.markers p (lt_of_node? hnode)
  totalInstructions n n' hn p config := by
    rw [h.eq_of_twins hn]
    exact h.totalInstructions hg n
  hasDependency s s' t t' hs ht := by
    rw [h.eq_of_twins hs, h.eq_of_twins ht, h.hasDependency hg]
  hasDependencyIgnoringBenign s s' t t' L L' hs ht hL := by
    rw [h.eq_of_twins hs, h.eq_of_twins ht, h.eq_of_twins hL, h.hasDependencyIgnoringBenign hg]
  nonBenignDependencies n n' L L' hn hL id := by
    rw [h.eq_of_twins hn, h.eq_of_twins hL]
    simp only [h.byId, Option.map_eq_some_iff]
    constructor
    · intro hin
      rcases hin with ⟨_, hm, m, hid, rfl⟩
      exact ⟨m, (h.mem_nonBenignDependencies_iff hg).mp hm, hid⟩
    · intro hin
      rcases hin with ⟨m, hm, hid⟩
      exact ⟨σ m, (h.mem_nonBenignDependencies_iff hg).mpr hm, m, hid, rfl⟩
  outcome d hd p id n hid hn := by
    -- both sources of verdicts read a node and not its number
    have hreads : d.verdicts.ReadsNode := by
      rcases hd with hd | ⟨scores, hd⟩
      · rw [hd]
        exact readsNode_storedVerdict
      · rw [hd]
        exact scores.readsNode_verdict
    have hid' : g'.byId? id = some (σ n) := by rw [h.byId, hid, Option.map_some]
    have hn' : g'.isKind (σ n) .function := by rw [h.isKind, hn]
    exact ⟨_, _, Detector.outcome?_run hg p hid hn, Detector.outcome?_run (h.sound hg) p hid' hn',
      h.evaluate hg hreads p d.config n⟩

end Renumbered

end Graph

/-- Snapshots with the same node records and the same edge records, in any orders, are both loaded
or both refused, and the graphs answer alike about the nodes of each identifier. -/
theorem Snapshot.toGraph_perm {s s' : Snapshot} (hnodes : s.nodes.Perm s'.nodes)
    (hedges : s.edges.Perm s'.edges) :
    ((∃ g, s.toGraph = .ok g) ↔ ∃ g', s'.toGraph = .ok g') ∧
    ∀ g g', s.toGraph = .ok g → s'.toGraph = .ok g' → g.AnswersAlike g' := by
  constructor
  · constructor
    · intro hin
      rcases hin with ⟨g, hg⟩
      rcases exists_renumbered hnodes hedges hg with ⟨_, g', hg', _⟩
      exact ⟨g', hg'⟩
    · intro hin
      rcases hin with ⟨g', hg'⟩
      rcases exists_renumbered hnodes.symm hedges.symm hg' with ⟨_, g, hg, _⟩
      exact ⟨g, hg⟩
  · intro g g' hg hg'
    -- loading has one result, so the graph of the second snapshot is the renumbered one
    rcases exists_renumbered hnodes hedges hg with ⟨σ, k, hk, hσ⟩
    rw [hg'] at hk
    rw [Except.ok.inj hk]
    exact hσ.answersAlike (sound_toGraph hg)

/-- A function over two loops that begin on one line.  The unit in the second loop reads what the
unit in the first one writes. -/
def sharedLine : Snapshot where
  nodes := [
    { id := "f", type := "function", line := ⟨1, 1⟩ },
    { id := "k", type := "loop", line := ⟨1, 4⟩, doAll := true },
    { id := "l", type := "loop", line := ⟨1, 4⟩ },
    { id := "u", type := "cu", line := ⟨1, 4⟩, instructions := 3, block := "for.inc" },
    { id := "v", type := "cu", line := ⟨1, 5⟩, instructions := 2, block := "for.body" }]
  edges := [
    { source := "f", target := "k", type := "child" },
    { source := "f", target := "l", type := "child" },
    { source := "k", target := "u", type := "child" },
    { source := "l", target := "v", type := "child" },
    { source := "v", target := "u", type := "dependence", dtype := some "RAW", var := some "a",
      sourceLine := some ⟨1, 4⟩, sinkLine := some ⟨1, 5⟩ }]

def Snapshot.reversed (s : Snapshot) : Snapshot :=
  ⟨s.nodes.reverse, s.edges.reverse⟩

/-- The loops of one line can be listed in either order. -/
theorem Snapshot.toGraph_perm_reversed : ∃ g g', sharedLine.toGraph = .ok g ∧
    sharedLine.reversed.toGraph = .ok g' ∧ g.AnswersAlike g' := by
  -- one of the two is run, the other one loads as its permutation
  have hloads : ∃ g, sharedLine.toGraph = .ok g := by
    simp [sharedLine, toGraph, addRecord, NodeRecord.toNode, NodeKind.parse, NodeKind.ofTag?,
      NodeRecord.payload, Builder.empty, Graph.empty, Builder.addNode, EdgeRecord.addTo,
      EdgeRecord.toDependence, EdgeRecord.needs, DependenceKind.ofTag?, Builder.addChildById,
      Builder.addDependenceById, Builder.resolve, Graph.byId?, Except.map, Builder.addChild,
      Builder.idOf, Graph.require, Graph.node?, bind, Except.bind, Builder.lineage, climb,
      Builder.addDependence, Builder.requireUnit, Builder.pushEdge, Node.kind, Payload.kind, pure,
      Except.pure, Std.ExtHashMap.getElem_insert]
  have hnodes : sharedLine.nodes.Perm sharedLine.reversed.nodes := (List.reverse_perm _).symm
  have hedges : sharedLine.edges.Perm sharedLine.reversed.edges := (List.reverse_perm _).symm
  have hperm := toGraph_perm hnodes hedges
  rcases hloads with ⟨g, hg⟩
  rcases hperm.1.mp ⟨g, hg⟩ with ⟨g', hg'⟩
  exact ⟨g, g', hg, hg', hperm.2 g g' hg hg'⟩

end UnitGraph
