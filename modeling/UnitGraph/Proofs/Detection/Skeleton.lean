import UnitGraph.Proofs.Detection.Locality
import UnitGraph.Proofs.Detection.Runs
import UnitGraph.Proofs.Graph.Skeleton

/-!
# Dependences play no part in containment

Calls that add dependences may be left out, wherever they stand between the others.  The graph that
is left contains the same nodes in the same order, and every question that does not ask for
dependences is answered alike, up to the report of a whole run.
-/

namespace UnitGraph

/-- The same nodes under the same identifiers, each where it was among the others. -/
structure Graph.ContainsAlike (g g' : Graph) : Prop where
  nodes : g'.nodes = g.nodes
  ids : g'.ids = g.ids
  children : ∀ n, g'.children n = g.children n
  parent : ∀ n, g'.parent? n = g.parent? n
  roots : g'.roots = g.roots
  enclosingLoop : ∀ n, g'.enclosingLoop? n = g.enclosingLoop? n
  index : SubtreeIndex.build g' = SubtreeIndex.build g

namespace Graph

variable {g : Graph} {d : Detector}

theorem containsAlike_skeleton (hg : g.Sound) (hg' : g.skeleton.Sound) :
    g.ContainsAlike g.skeleton where
  nodes := rfl
  ids := rfl
  children := congrFun g.children_skeleton
  parent := congrFun g.parent?_skeleton
  roots := g.roots_skeleton
  enclosingLoop := congrFun g.enclosingLoop?_skeleton
  index := SubtreeIndex.build_skeleton hg hg'

theorem keeps_skeleton (g : Graph) (n : Nat) : g.Keeps g.skeleton n where
  node _ _ := rfl
  children m _ := congrFun g.children_skeleton m
  loop := congrFun g.enclosingLoop?_skeleton n
  around _ _ := rfl

/-- A run leaves the skeleton of what it leaves, with the same verdicts. -/
theorem run_skeleton (hg : g.Sound) (hg' : g.skeleton.Sound) (hd : d.verdicts.ReadsNode)
    (p : Profile) : d.run g.skeleton p = ((d.run g p).1, (d.run g p).2.skeleton) := by
  -- without dependences everything around a function is kept, at every function
  have hevaluate : ∀ n, (d.evaluate (.new g.skeleton p d.config) n).1 =
      (d.evaluate (.new g p d.config) n).1 :=
    fun n => (g.keeps_skeleton n).evaluate hg hg' hd p d.config
  have hfunctions : (d.run g.skeleton p).1.functions = (d.run g p).1.functions := by
    rw [Detector.functions_run, Detector.functions_run]
    exact List.map_congr_left fun n _ => hevaluate n
  have hafter : (d.run g.skeleton p).2 = (d.run g p).2.skeleton := by
    rw [Detector.run_snd, Detector.run_snd]
    simp only [hevaluate]
    rfl
  rw [Detector.run_eq, hfunctions, hafter]
  rfl

end Graph

/-- Without the calls that ask for dependences, the others build a graph that contains the same in
the same order.  A session over it replies alike to any questions about nodes, and a run reports the
same.  The children of a node are those that the calls have attached to it, in the order of the
calls. -/
theorem Builder.run_withoutDependences (calls : List Call) :
    let g := Graph.ofCalls calls
    let g' := Graph.ofCalls (calls.filter (!·.isDependence))
    g.ContainsAlike g' ∧
    (∀ config p qs, (∀ q ∈ qs, ∃ n, Query.LocalTo n q) →
      (Session.new g' p config).askAll qs = (Session.new g p config).askAll qs) ∧
    (∀ (d : Detector) p, d.verdicts.ReadsNode → (d.run g' p).1 = (d.run g p).1) ∧
    ∀ n, g.children n = ((Builder.empty.attachments calls).filter (·.1 = n)).map Prod.snd := by
  intro g g'
  have hg : g.Sound := Graph.sound_ofCalls calls
  have hskeleton : g' = g.skeleton := Graph.ofCalls_skeleton calls
  have hg' : g.skeleton.Sound := hskeleton ▸ Graph.sound_ofCalls _
  -- leaving out the dependence calls or their edges gives the same graph
  rw [hskeleton]
  refine ⟨Graph.containsAlike_skeleton hg hg', fun config p qs hqs => ?_, fun d p hd => ?_,
    fun n => ?_⟩
  · apply Session.askAll_congr
    intro q hq p
    rcases hqs q hq with ⟨n, hn⟩
    exact (g.keeps_skeleton n).askNew hg hg' hn config p
  · rw [Graph.run_skeleton hg hg' hd]
  · exact (Builder.sound_empty.children_run calls n).trans (List.nil_append _)

end UnitGraph
