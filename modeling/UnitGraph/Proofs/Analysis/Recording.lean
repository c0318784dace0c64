import UnitGraph.Proofs.Analysis.Dependences

/-!
# One more dependence

A recorded dependence adds an edge and leaves containment as it was.  It can make other edges of its
variable count that were benign before, but it never makes a dependence go away: the lines of loop
headers stay the same, and the more edges there are, the fewer variables are read-only.
-/

namespace UnitGraph

namespace Graph

/-- The later graph has the same nodes and the same containment, and every edge of the earlier one
under its number. -/
structure Records (g g' : Graph) : Prop where
  nodes : g'.nodes = g.nodes
  parents : g'.parent? = g.parent?
  edges : ∀ (i : Nat) (e : Edge), g.edges[i]? = some e → g'.edges[i]? = some e

namespace Records

variable {g g' : Graph} {enclosing target : Nat} {d : Dependence} {var : String}

theorem withDependence (g : Graph) (s t : Nat) (d : Dependence) :
    g.Records (g.withEdge ⟨s, t, .dependence d⟩) where
  nodes := rfl
  parents := funext fun n => parent?_withDependence g s t d n
  edges i e he := by
    rw [withEdge, Array.getElem?_push]
    have hlt := (Array.getElem?_eq_some_iff.mp he).1
    rw [if_neg (by omega), he]

theorem mem_edges (h : g.Records g') {e : Edge} (he : e ∈ g.edges) : e ∈ g'.edges := by
  rcases Array.mem_iff_getElem?.mp he with ⟨i, hi⟩
  exact Array.mem_of_getElem? (h.edges i e hi)

theorem headerUnder (h : g.Records g') : g'.HeaderUnder = g.HeaderUnder := by
  funext enclosing line
  have hnode : ∀ n, g'.node? n = g.node? n := fun n => by rw [node?, node?, h.nodes]
  simp only [HeaderUnder, hnode, h.parents]

theorem loopIndex_iff (h : g.Records g') :
    g'.LoopIndex enclosing target d ↔ g.LoopIndex enclosing target d := by
  have hheader := congrFun (congrFun h.headerUnder enclosing) d.sourceLine
  constructor
  · intro hin
    exact ⟨hin.line, hheader ▸ hin.header, h.parents ▸ hin.target⟩
  · intro hin
    exact ⟨hin.line, hheader ▸ hin.header, h.parents ▸ hin.target⟩

theorem readOnly (h : g.Records g') (hro : g'.ReadOnly enclosing var) :
    g.ReadOnly enclosing var where
  sink s t d he hvar hkind hc := by
    rw [← h.headerUnder]
    exact hro.sink s t d (h.mem_edges he) hvar hkind (h.parents ▸ hc)
  source s t d he hvar hkind hc := by
    rw [← h.headerUnder]
    exact hro.source s t d (h.mem_edges he) hvar hkind (h.parents ▸ hc)

end Records

end Graph

namespace Classifier

/-- The later classifier finds every dependence that the earlier one finds.  Of the earlier edges
the same are loop indexes, and no more are read-only. -/
structure Grows (c c' : Classifier) : Prop where
  hasDependency : ∀ s t, c.hasDependency s t → c'.hasDependency s t
  ignoringBenign : ∀ s t L,
    c.hasDependencyIgnoringBenign s t L → c'.hasDependencyIgnoringBenign s t L
  nonBenign : ∀ n L, c.nonBenignDependencies n L ⊆ c'.nonBenignDependencies n L
  loopIndex : ∀ e < c.graph.edges.size, ∀ L, c'.isLoopIndex e L = c.isLoopIndex e L
  readOnly : ∀ e < c.graph.edges.size, ∀ L,
    c'.isReadOnlyInLoopBody e L → c.isReadOnlyInLoopBody e L

theorem nonBenign_subset {c c' : Classifier} (hc : c.Sound) (hc' : c'.Sound)
    (h : c.graph.Records c'.graph) (n L : Nat) :
    c.nonBenignDependencies n L ⊆ c'.nonBenignDependencies n L := by
  intro m hm
  rw [hc.mem_nonBenignDependencies] at hm
  rw [hc'.mem_nonBenignDependencies]
  rcases hm with ⟨s, d, he, hkind, hclimbs, hbenign⟩
  refine ⟨s, d, h.mem_edges he, hkind, h.parents ▸ hclimbs, fun hin => hbenign ?_⟩
  -- an edge that is benign with more edges around was benign with fewer
  exact ⟨h.loopIndex_iff.mp hin.1, h.readOnly hin.2⟩

theorem grows_of_records {c c' : Classifier} (hc : c.Sound) (hc' : c'.Sound)
    (h : c.graph.Records c'.graph) : c.Grows c' where
  hasDependency s t hin := by
    rw [hc.hasDependency_iff] at hin
    rw [hc'.hasDependency_iff, h.parents]
    rcases hin with ⟨hne, u, v, d, he, hrest⟩
    exact ⟨hne, u, v, d, h.mem_edges he, hrest⟩
  ignoringBenign s t L hin := by
    rw [hc.hasDependencyIgnoringBenign_iff] at hin
    -- what is benign may become harmful with more edges, never the other way round
    rw [hc'.hasDependencyIgnoringBenign_iff, h.parents]
    rcases hin with ⟨hne, m, hm, hclimbs⟩
    exact ⟨hne, m, nonBenign_subset hc hc' h s L hm, hclimbs⟩
  nonBenign := nonBenign_subset hc hc' h
  loopIndex e he L := by
    have hedge : c'.graph.edges[e]? = c.graph.edges[e]? := by
      rw [Array.getElem?_eq_getElem he]
      exact h.edges e _ (Array.getElem?_eq_getElem he)
    rw [Bool.eq_iff_iff, hc'.isLoopIndex_iff, hc.isLoopIndex_iff, hedge]
    simp only [h.loopIndex_iff]
  readOnly e he L hin := by
    have hedge : c'.graph.edges[e]? = c.graph.edges[e]? := by
      rw [Array.getElem?_eq_getElem he]
      exact h.edges e _ (Array.getElem?_eq_getElem he)
    -- being read-only asks something of every edge, and before there were fewer
    rw [hc'.isReadOnlyInLoopBody_iff, hedge] at hin
    rw [hc.isReadOnlyInLoopBody_iff]
    rcases hin with ⟨s, t, d, hi, hro⟩
    exact ⟨s, t, d, hi, h.readOnly hro⟩

end Classifier

/-- Recording one more dependence on any builder that calls lead to makes no dependence go away. -/
theorem Builder.addDependence_grows (calls : List Call) (s t : Nat) (d : Dependence) {b' : Builder}
    (h : (Builder.empty.run calls).2.addDependence s t d = .ok b') :
    (Graph.ofCalls calls).classifier.Grows b'.graph.classifier := by
  rcases addDependence_ok h with ⟨hs, ht, rfl⟩
  have hb := sound_run calls
  have hb' := hb.step (.dependence s t d hs ht)
  exact Classifier.grows_of_records (Classifier.sound_classifier hb.graph)
    (Classifier.sound_classifier hb'.graph) (Graph.Records.withDependence _ s t d)

/-- A loop on line 10 with its condition and its body, and the read of the index in the body that is
benign so far. -/
def indexedLoop : List Builder.Call := [
  .node { id := "l", line := ⟨1, 10⟩, payload := .loop true false },
  .node { id := "c", line := ⟨1, 10⟩, payload := .unit 1 "for.cond" },
  .node { id := "b", line := ⟨1, 11⟩, payload := .unit 2 "for.body" },
  .child 0 1,
  .child 0 2,
  .dependence 2 1 ⟨.raw, "i", ⟨1, 10⟩, ⟨1, 10⟩⟩]

/-- A write of the index in the body turns that read into one that counts. -/
theorem Builder.addDependence_grows_indexedLoop :
    ∃ b', (Builder.empty.run indexedLoop).2.addDependence 2 2
        ⟨.war, "i", ⟨1, 10⟩, ⟨1, 11⟩⟩ = .ok b' ∧
      (Graph.ofCalls indexedLoop).classifier.Grows b'.graph.classifier := by
  have hok : ∃ b', (Builder.empty.run indexedLoop).2.addDependence 2 2
      ⟨.war, "i", ⟨1, 10⟩, ⟨1, 11⟩⟩ = .ok b' := by
    simp [indexedLoop, run, call, Builder.empty, Graph.empty, addNode, Except.map, addChild, idOf,
      Graph.require, Graph.node?, bind, Except.bind, lineage, climb, addDependence, requireUnit,
      pushEdge, Node.kind, Payload.kind, pure, Except.pure]
  rcases hok with ⟨b', hb'⟩
  exact ⟨b', hb', addDependence_grows indexedLoop 2 2 _ hb'⟩

end UnitGraph
