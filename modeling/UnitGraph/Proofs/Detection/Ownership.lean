import UnitGraph.Proofs.Codec.RoundTrip
import UnitGraph.Proofs.Detection.Runs
import UnitGraph.Proofs.Graph.Additions
import UnitGraph.Proofs.Graph.Listing

/-!
# Where verdicts come from

A run writes verdicts on functions and on no other node.  It is not the only source of verdicts: the
text that a node is read from may hold one, and the builder takes the node as it is.  So verdicts
are those of runs exactly when every node was added without one, which is always so in a graph that
was loaded from a snapshot.
-/

namespace UnitGraph

/-- No node has a verdict but by a run: a function has none on the graph as it is, and whatever runs
come, no other node ever has one. -/
structure Graph.VerdictsByRuns (g : Graph) : Prop where
  functions : ∀ n, g.isKind n .function → g.decomposes? n = none
  others : ∀ runs n, ¬g.isKind n .function → (g.afterRuns runs).decomposes? n = none

theorem Node.kind_judged (node : Node) (verdict : Bool) :
    (node.judged verdict).kind = node.kind := by
  unfold judged
  split <;> rfl

theorem Node.decomposes_judged {node : Node} (verdict : Bool) (h : node.kind ≠ .function) :
    (node.judged verdict).decomposes = node.decomposes := by
  rw [judged, if_neg h]

namespace Graph

variable {g : Graph} {n : Nat}

/-! ## Runs -/

theorem isKind_run (d : Detector) (g : Graph) (p : Profile) : (d.run g p).2.isKind = g.isKind := by
  funext n kind
  rw [Detector.run_snd, isKind, isKind, kind?, kind?, node?_judged, Option.map_map]
  apply congrArg (fun found : Option NodeKind => decide (found = some kind))
  apply Option.map_congr
  intro node _
  exact node.kind_judged _

theorem decomposes?_run (d : Detector) (p : Profile) (hn : ¬g.isKind n .function) :
    (d.run g p).2.decomposes? n = g.decomposes? n := by
  rw [Detector.run_snd, decomposes?, decomposes?, node?_judged]
  cases hnode : g.node? n with
  | none => rfl
  | some node =>
    have hkind : node.kind ≠ .function := fun hk => hn (isKind_iff.mpr ⟨node, hnode, hk⟩)
    exact Node.decomposes_judged _ hkind

/-- Whatever a node that is no function holds, it keeps. -/
theorem decomposes?_afterRuns (runs : List (Detector × Profile)) (hn : ¬g.isKind n .function) :
    (g.afterRuns runs).decomposes? n = g.decomposes? n := by
  induction runs generalizing g with
  | nil => rfl
  | cons run runs ih =>
    have hrun := ih (g := (run.1.run g run.2).2) (by rwa [isKind_run])
    exact hrun.trans (decomposes?_run run.1 run.2 hn)

/-! ## Verdicts that were there before -/

theorem decomposes?_eq_none :
    (∀ n, g.decomposes? n = none) ↔ ∀ node ∈ g.nodes.toList, node.decomposes = none := by
  constructor
  · intro h node hnode
    rcases List.mem_iff_getElem?.mp hnode with ⟨n, hn⟩
    have hnone := h n
    rw [decomposes?, node?, ← Array.getElem?_toList, hn] at hnone
    exact hnone
  · intro h n
    rw [decomposes?]
    cases hn : g.node? n with
    | none => rfl
    | some node =>
      apply h
      rw [node?, ← Array.getElem?_toList] at hn
      exact List.mem_of_getElem? hn

theorem verdictsByRuns_iff :
    g.VerdictsByRuns ↔ ∀ node ∈ g.nodes.toList, node.decomposes = none := by
  rw [← decomposes?_eq_none]
  constructor
  · intro h n
    by_cases hn : g.isKind n .function
    · exact h.functions n hn
    · exact h.others [] n hn
  · intro h
    exact ⟨fun n _ => h n, fun runs n hn => (decomposes?_afterRuns runs hn).trans (h n)⟩

theorem verdictsByRuns_ofCalls_iff (calls : List Builder.Call) :
    (ofCalls calls).VerdictsByRuns ↔
      ∀ node answer, (.node node, answer) ∈ Builder.empty.granted calls →
        node.decomposes = none := by
  have hnodes : (ofCalls calls).nodes.toList =
      (Builder.empty.granted calls).filterMap (·.1.node?) :=
    Builder.sound_empty.nodes_run calls
  rw [verdictsByRuns_iff, hnodes]
  simp only [List.mem_filterMap]
  constructor
  · intro h node answer hin
    exact h node ⟨_, hin, rfl⟩
  · intro h node hin
    rcases hin with ⟨⟨c, answer⟩, hin, hc⟩
    -- only a call that adds a node brings one in
    cases c with
    | node added =>
      cases hc
      exact h _ answer hin
    | child => cases hc
    | dependence => cases hc
    | childById => cases hc
    | dependenceById => cases hc
    | resolve => cases hc

end Graph

/-- A record has no field for a verdict, so no node comes with one. -/
theorem Snapshot.verdictsByRuns_toGraph {s : Snapshot} {g : Graph} (h : s.toGraph = .ok g) :
    g.VerdictsByRuns := by
  rcases toGraph_ok.mp h with ⟨ns, es, hns, _, _, _, rfl⟩
  rw [Graph.verdictsByRuns_iff, Graph.nodes_withEdges, Graph.nodes_ofNodes]
  intro node hnode
  rcases exists_left_of_forall₂ hns hnode with ⟨r, _, hr⟩
  rcases NodeRecord.toNode_ok.mp hr with ⟨payload, _, rfl⟩
  rfl

/-! ## Nodes alone -/

/-- Nodes with new and different identifiers are all granted. -/
theorem Builder.run_nodes {b : Builder} {ns : List Node} (h : b.graph.Fresh ns) :
    (b.run (ns.map .node)).2 = ns.foldl grow b := by
  induction ns generalizing b with
  | nil => rfl
  | cons node ns ih =>
    rw [Graph.fresh_cons] at h
    have hcall : (b.call (.node node)).2 = b.grow node := by
      rw [call_eq, attempt, addNode_eq, if_neg h.1]
      rfl
    rw [List.map_cons, run_cons, hcall]
    exact ih h.2

theorem Graph.ofCalls_nodes {ns : List Node} (h : (ns.map Node.id).Nodup) :
    ofCalls (ns.map .node) = ofNodes ns := by
  rw [ofCalls, Builder.run_nodes (fresh_empty.mpr h), Builder.graph_grows]
  rfl

/-! ## Where verdicts come from -/

/-- On a graph that calls built, all verdicts are those of runs exactly when no node was added with
a verdict on it.  On a graph that was loaded from a snapshot they always are. -/
theorem Graph.verdictsByRuns_exactly (calls : List Builder.Call) (s : Snapshot) :
    ((ofCalls calls).VerdictsByRuns ↔
      ∀ node answer, (.node node, answer) ∈ Builder.empty.granted calls →
        node.decomposes = none) ∧
    ∀ g, s.toGraph = .ok g → g.VerdictsByRuns :=
  ⟨verdictsByRuns_ofCalls_iff calls, fun _ h => Snapshot.verdictsByRuns_toGraph h⟩

/-- The text of a dummy may hold a verdict.  In a graph of that dummy and of a function that was
written with a verdict too, the dummy has its verdict after a run and the function before any. -/
theorem Graph.not_verdictsByRuns_read :
    let dummy : Node := ⟨"x", ⟨1, 1⟩, .dummy, some true⟩
    let main : Node := ⟨"f", ⟨1, 2⟩, .function "main", some false⟩
    let g := ofCalls [.node dummy, .node main]
    Json.decode Node.reader ("\x7b\"id\":\"x\",\"start_line\":\"1:1\",\"payload\":\"Dummy\"," ++
      "\"geometric_decomposition\":true\x7d") = .ok dummy ∧
    (g.afterRuns [(.new {}, .empty)]).decomposes? 0 = some true ∧
    g.decomposes? 1 = some false ∧ ¬g.VerdictsByRuns := by
  intro dummy main g
  have hg : g = ofNodes [dummy, main] := @ofCalls_nodes [dummy, main] (by decide)
  have hdummy : g.node? 0 = some dummy := by rw [hg, node?_ofNodes]; rfl
  have hmain : g.node? 1 = some main := by rw [hg, node?_ofNodes]; rfl
  -- the first node is no function, so no run writes to it
  have hkind : ¬g.isKind 0 .function := by
    rw [isKind, kind?, hdummy]
    decide
  have hafter : (g.afterRuns [(.new {}, .empty)]).decomposes? 0 = some true := by
    rw [decomposes?_afterRuns _ hkind, decomposes?, hdummy]
    rfl
  refine ⟨by decide +kernel, hafter, ?_, fun h => ?_⟩
  · rw [decomposes?, hmain]
    rfl
  · rw [h.others _ 0 hkind] at hafter
    exact Option.some_ne_none true hafter.symm

end UnitGraph
