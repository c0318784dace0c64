import UnitGraph.Proofs.Graph.Additions
import UnitGraph.Proofs.Graph.Listing

/-!
# Built graphs as snapshots

A snapshot has room for all that calls can put into a graph, but for verdicts of runs.  The graph
listed node by node and edge by edge, in the order of the numbers, loads as that graph.  Loading
adds all nodes before any edge and makes none of the refused calls; no edge is refused on the way
because fewer edges than those of a sound graph are sound as well.
-/

namespace UnitGraph

/-! ## Records of nodes and edges -/

def NodeRecord.ofNode (node : Node) : NodeRecord :=
  let r : NodeRecord := { id := node.id, type := node.kind.tag, line := node.line }
  match node.payload with
  | .unit instructions block => { r with instructions, block }
  | .loop doAll reduction => { r with doAll, reduction }
  | .function name => { r with name := some name }
  | .dummy => r

def EdgeRecord.ofEdge (g : Graph) (e : Edge) : EdgeRecord :=
  let source := (g.node? e.source).elim "" Node.id
  let target := (g.node? e.target).elim "" Node.id
  match e.label with
  | .child => { source, target, type := "child" }
  | .dependence d =>
    { source, target, type := "dependence", dtype := some d.kind.tag, var := some d.var
      sourceLine := some d.sourceLine, sinkLine := some d.sinkLine }

def Snapshot.ofGraph (g : Graph) : Snapshot :=
  ⟨g.nodes.toList.map .ofNode, g.edges.toList.map (.ofEdge g)⟩

theorem NodeRecord.toNode_ofNode (node : Node) :
    (ofNode node).toNode = .ok { node with decomposes := none } := by
  rw [toNode_ok]
  rcases node with ⟨id, line, payload, decomposes⟩
  cases payload with
  | unit instructions block => exact ⟨_, .unit rfl, rfl⟩
  | loop doAll reduction => exact ⟨_, .loop rfl, rfl⟩
  | function name => exact ⟨_, .named name (.inl rfl) rfl, rfl⟩
  | dummy => exact ⟨_, .dummy rfl, rfl⟩

/-- The record of an edge lists it wherever its ends have the same identifiers. -/
theorem EdgeRecord.lists_ofEdge {g g' : Graph} {e : Edge} {source target : Node}
    (hs : g.node? e.source = some source) (ht : g.node? e.target = some target)
    (hs' : g'.byId? source.id = some e.source) (ht' : g'.byId? target.id = some e.target) :
    (ofEdge g e).Lists g' e := by
  rcases e with ⟨s, t, l⟩
  cases l with
  | child =>
    unfold ofEdge
    rw [hs, ht]
    exact ⟨hs', ht', .inl ⟨rfl, rfl⟩⟩
  | dependence d =>
    unfold ofEdge
    rw [hs, ht]
    exact ⟨hs', ht', .inr ⟨rfl, d, toDependence_ok.mpr ⟨rfl, rfl, rfl, rfl⟩, rfl⟩⟩

/-! ## Sound graphs from their parts -/

namespace Graph

variable {g : Graph} {e : Edge}

theorem Sound.nodup_ids (hg : g.Sound) : (g.nodes.toList.map Node.id).Nodup := by
  rw [List.Nodup, List.pairwise_map, List.pairwise_iff_getElem]
  intro n m hn hm hlt heq
  have hnames : ∀ k (hk : k < g.nodes.toList.length), g.Names (g.nodes.toList[k].id) k := by
    intro k hk
    refine ⟨g.nodes.toList[k], ?_, rfl⟩
    rw [node?, ← Array.getElem?_toList, List.getElem?_eq_getElem hk]
  exact absurd (hg.names_unique (hnames n hn) (heq ▸ hnames m hm)) (Nat.ne_of_lt hlt)

theorem Sound.ids_ofNodes (hg : g.Sound) : (ofNodes g.nodes.toList).ids = g.ids := by
  apply Std.ExtHashMap.ext_getElem?
  intro id
  apply Option.ext
  intro n
  change (ofNodes g.nodes.toList).byId? id = some n ↔ g.byId? id = some n
  rw [(sound_ofNodes hg.nodup_ids).ids, hg.ids, node?_ofNodes, Array.getElem?_toList]
  rfl

/-- A sound graph is made of its nodes and its edges. -/
theorem Sound.withEdges_ofNodes (hg : g.Sound) :
    (ofNodes g.nodes.toList).withEdges g.edges.toList = g := by
  have hnodes : ((ofNodes g.nodes.toList).withEdges g.edges.toList).nodes = g.nodes := by
    rw [nodes_withEdges, ← Array.toList_inj, nodes_ofNodes]
  have hedges : ((ofNodes g.nodes.toList).withEdges g.edges.toList).edges = g.edges := by
    rw [← Array.toList_inj, edges_withEdges, edges_ofNodes]
    rfl
  have hids : ((ofNodes g.nodes.toList).withEdges g.edges.toList).ids = g.ids := by
    rw [ids_withEdges, hg.ids_ofNodes]
  -- three fields make the graph, so it is the same graph
  generalize (ofNodes g.nodes.toList).withEdges g.edges.toList = g' at hnodes hedges hids
  rcases g with ⟨nodes, edges, ids⟩
  rcases g' with ⟨nodes', edges', ids'⟩
  cases hnodes
  cases hedges
  cases hids
  rfl

theorem Sound.exists_ends (hg : g.Sound) (he : e ∈ g.edges) :
    ∃ source target, g.node? e.source = some source ∧ g.node? e.target = some target := by
  have hlt : e.source < g.nodes.size ∧ e.target < g.nodes.size := by
    rcases e with ⟨s, t, l⟩
    cases l with
    | child => exact (hg.forest.below t s (hg.parent?_eq_some.mpr he)).symm
    | dependence d =>
      have hends := hg.units s t d he
      exact ⟨lt_of_isKind hends.1, lt_of_isKind hends.2⟩
  rcases exists_node? hlt.1 with ⟨source, hs⟩
  rcases exists_node? hlt.2 with ⟨target, ht⟩
  exact ⟨source, target, hs, ht⟩

/-- A sound graph without verdicts is what its snapshot loads as. -/
theorem Sound.toGraph_ofGraph (hg : g.Sound) (hbare : ∀ node ∈ g.nodes, node.decomposes = none) :
    (Snapshot.ofGraph g).toGraph = .ok g := by
  rw [Snapshot.toGraph_ok]
  refine ⟨g.nodes.toList, g.edges.toList, ?_, hg.nodup_ids, ?_, ?_, hg.withEdges_ofNodes.symm⟩
  · rw [Snapshot.ofGraph, List.forall₂_map_left_iff, List.forall₂_same]
    intro node hnode
    -- a record has no place for a recorded verdict
    rw [NodeRecord.toNode_ofNode, ← hbare node (Array.mem_toList_iff.mp hnode)]
  · rw [Snapshot.ofGraph, List.forall₂_map_left_iff, List.forall₂_same]
    intro e he
    rcases hg.exists_ends (Array.mem_toList_iff.mp he) with ⟨source, target, hs, ht⟩
    refine EdgeRecord.lists_ofEdge hs ht ?_ ?_
    · rw [byId?, hg.ids_ofNodes]
      exact (hg.ids _ _).mpr ⟨source, hs, rfl⟩
    · rw [byId?, hg.ids_ofNodes]
      exact (hg.ids _ _).mpr ⟨target, ht, rfl⟩
  · rw [hg.withEdges_ofNodes]
    exact hg

end Graph

/-! ## Built graphs -/

theorem Builder.mem_of_mem_granted {b : Builder} {calls : List Call} {c : Call} {answer : Answer}
    (h : (c, answer) ∈ b.granted calls) : c ∈ calls :=
  (List.of_mem_zip (List.mem_filter.mp h).1).1

/-- Whatever calls have built a graph, in whatever order and however many of them were refused, its
snapshot loads as that graph: the same nodes under the same numbers, the same edges under the same
numbers, and the same numbers of identifiers. -/
theorem Snapshot.toGraph_ofCalls (calls : List Builder.Call)
    (hbare : ∀ c ∈ calls, ∀ node, c.node? = some node → node.decomposes = none) :
    (ofGraph (.ofCalls calls)).toGraph = .ok (.ofCalls calls) := by
  apply (Graph.sound_ofCalls calls).toGraph_ofGraph
  intro node hnode
  have hnodes : (Graph.ofCalls calls).nodes.toList =
      (Builder.empty.granted calls).filterMap (·.1.node?) :=
    Builder.sound_empty.nodes_run calls
  rw [← Array.mem_toList_iff, hnodes, List.mem_filterMap] at hnode
  rcases hnode with ⟨⟨c, answer⟩, hin, hc⟩
  exact hbare c (Builder.mem_of_mem_granted hin) node hc

/-- Edges between additions of nodes, and two refused calls: the function below its own loop, and a
second node with its identifier. -/
theorem Snapshot.toGraph_ofCalls_interleaved :
    let calls : List Builder.Call := [
      .node { id := "f", line := ⟨1, 1⟩, payload := .function "main" },
      .node { id := "l", line := ⟨1, 2⟩, payload := .loop true false },
      .child 0 1,
      .childById "l" "f",
      .node { id := "u", line := ⟨1, 3⟩, payload := .unit 12 "for.body" },
      .dependence 2 2 ⟨.raw, "i", ⟨1, 2⟩, ⟨1, 3⟩⟩,
      .node { id := "f", line := ⟨1, 4⟩, payload := .dummy },
      .childById "l" "u"]
    let listed : Snapshot := {
      nodes := [
        { id := "f", type := "func", line := ⟨1, 1⟩, name := some "main" },
        { id := "l", type := "loop", line := ⟨1, 2⟩, doAll := true },
        { id := "u", type := "cu", line := ⟨1, 3⟩, instructions := 12, block := "for.body" }]
      edges := [
        { source := "f", target := "l", type := "child" },
        { source := "u", target := "u", type := "dependence", dtype := some "RAW", var := some "i"
          sourceLine := some ⟨1, 2⟩, sinkLine := some ⟨1, 3⟩ },
        { source := "l", target := "u", type := "child" }] }
    (∀ c ∈ calls, ∀ node, c.node? = some node → node.decomposes = none) ∧
    ofGraph (.ofCalls calls) = listed ∧ listed.toGraph = .ok (.ofCalls calls) := by
  intro calls listed
  have hbare : ∀ c ∈ calls, ∀ node, c.node? = some node → node.decomposes = none := by
    simp [calls, Builder.Call.node?]
  have hlisted : ofGraph (.ofCalls calls) = listed := by
    simp [calls, Graph.ofCalls, Builder.run, Builder.call, Builder.addNode, Builder.addChild,
      Builder.empty, Graph.empty, Builder.idOf, Graph.require, Graph.node?, Except.map, bind,
      Except.bind, Builder.lineage, climb, Builder.pushEdge, pure, Except.pure,
      Builder.addChildById, Builder.resolve, Graph.byId?, Builder.addDependence,
      Builder.requireUnit, Node.kind, Payload.kind, Std.ExtHashMap.getElem_insert, throw, throwThe,
      MonadExceptOf.throw]
    rfl
  have hloads := toGraph_ofCalls calls hbare
  rw [hlisted] at hloads
  exact ⟨hbare, hlisted, hloads⟩

end UnitGraph
