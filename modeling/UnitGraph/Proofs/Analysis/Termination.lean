import UnitGraph.Proofs.Analysis.Workload
import UnitGraph.Proofs.Graph.Walks

/-!
# Everything that goes on by itself ends

The estimate of a function asks for the estimates of its children.  Their subtrees are parts of its
own that leave it out, so a depth of as many levels as the subtree has nodes is never used up, and
the estimates follow one another as if no depth was given.  With the walks up and down the
containment forest that is all in the library that goes on for as long as the graph makes it.
-/

namespace UnitGraph

variable {g : Graph} {own ix : SubtreeIndex} {n c : Nat}

/-! ## Subtrees of children -/

namespace SubtreeIndex.Exact

theorem length_subtree_lt (hx : own.Exact g) (hg : g.Sound) (hc : c ∈ g.children n) :
    (own.subtree c).length < (own.subtree n).length := by
  have hn : n < g.nodes.size := (hg.forest.below c n (hg.mem_children_iff.mp hc)).2
  have hpart : (own.subtree c).Sublist ((g.children n).flatMap own.subtree) :=
    List.sublist_flatten_of_mem (List.mem_map_of_mem hc)
  rw [hx.subtree_eq hg hn, List.length_cons]
  exact Nat.lt_succ_of_le hpart.length_le

theorem length_subtree_pos (hx : own.Exact g) (hg : g.Sound) (hn : n < g.nodes.size) :
    0 < (own.subtree n).length := by
  rw [hx.subtree_eq hg hn, List.length_cons]
  exact Nat.succ_pos _

theorem length_subtree_le (hx : own.Exact g) (hg : g.Sound) (n : Nat) :
    (own.subtree n).length ≤ g.nodes.size := by
  have hbelow : own.subtree n ⊆ g.indices := fun m hm =>
    have hin := (hx.mem_subtree hg).mp hm
    Graph.mem_indices.mpr (hg.forest.lt_of_climbs_of_lt hin.2 hin.1)
  have hle := ((hx.nodup_subtree hg n).subperm hbelow).length_le
  rwa [Graph.indices, List.length_range] at hle

end SubtreeIndex.Exact

/-! ## Estimates -/

namespace Workload

variable {m : Markers} {e : Estimator} {depth depth' : Nat}

theorem addAll_congr {estimate estimate' : Nat → Estimate} {ns : List Nat}
    (h : ∀ n ∈ ns, ∀ e, estimate n e = estimate' n e) (total : Count) (e : Estimator) :
    addAll estimate total ns e = addAll estimate' total ns e := by
  induction ns generalizing total e with
  | nil => rfl
  | cons n ns ih =>
    rw [List.forall_mem_cons] at h
    rw [addAll, addAll, h.1 e]
    rcases estimate' n e with ⟨found, e'⟩
    cases found with
    | ok count => exact ih h.2 (Count.add total count) e'
    | error err => rfl

/-- Depths of at least as many levels as the subtree has nodes give the same estimate. -/
theorem within_eq_within (hg : g.Sound) (hx : own.Exact g)
    (hdepth : (own.subtree n).length ≤ depth) (hdepth' : (own.subtree n).length ≤ depth') :
    within m g ix depth n e = within m g ix depth' n e := by
  induction depth generalizing n depth' e with
  | zero =>
    have hn : g.node? n = none := by
      refine Graph.node?_of_ge (Nat.not_lt.mp fun hn => ?_)
      exact absurd (hx.length_subtree_pos hg hn) (Nat.not_lt.mpr hdepth)
    rw [within_missing hn, within_missing hn]
  | succ depth ih =>
    cases hn : g.node? n with
    | none => rw [within_missing hn, within_missing hn]
    | some node =>
      cases hp : node.payload with
      | unit instructions block => rw [within_unit hn hp, within_unit hn hp]
      | loop doAll reduction => rw [within_loop hn hp, within_loop hn hp]
      | dummy => rw [within_dummy hn hp, within_dummy hn hp]
      | function name =>
        -- the node itself takes one level, so one is left to take off on both sides
        have hpos := hx.length_subtree_pos hg (Graph.lt_of_node? hn)
        rw [show depth' = depth' - 1 + 1 by omega, within_function hn hp, within_function hn hp]
        refine addAll_congr (fun c hc e => ?_) 0 e
        have hlt := hx.length_subtree_lt hg hc
        exact ih (by omega) (by omega)

/-- The estimate of a function is the sum of the estimates of its children, with no depth given. -/
theorem estimate_of_function (hg : g.Sound) (hn : g.isKind n .function) :
    estimate m g ix n e = addAll (estimate m g ix) 0 (g.children n) e := by
  have hx := SubtreeIndex.exact_build hg
  have hle := hx.length_subtree_le hg
  obtain ⟨node, hnode, hkind⟩ := Graph.isKind_iff.mp hn
  cases hp : node.payload with
  | function name =>
    rw [estimate, within_eq_within hg hx (hle n) (Nat.le_succ_of_le (hle n)),
      within_function hnode hp]
    rfl
  | unit | loop | dummy =>
    rw [Node.kind, hp] at hkind
    cases hkind

end Workload

/-! ## Built graphs -/

/-- After any calls, refused ones included: the walk up from a new parent and the walk up to the
nearest loop meet no node twice, so that both end within the number of nodes.  The walks below the
roots do what is pending until nothing is, and leave the index of the graph.  What is pushed for a
root is done, one visit to enter and one to leave each node of its tree, and what is entered is
always new; over all roots every node of the graph is entered once and left once.  The estimate of
a function goes on with children, whose subtrees are smaller than its own, and nothing else limits
how deep. -/
theorem Builder.walks_end (calls : List Call) :
    let b := (Builder.empty.run calls).2
    let g := b.graph
    let ix := SubtreeIndex.build g
    (∀ p < g.nodes.size, ∀ c, ∃ l, (∀ k, b.Ascends p c k ↔ k = l) ∧
      l.Nodup ∧ l.length ≤ g.nodes.size ∧ (c ∈ l ↔ c ∈ b.lineage p)) ∧
    (∀ n, ∃ l, (∀ k, g.Ascends n k ↔ k = l) ∧
      (n :: l).Nodup ∧ l.length ≤ g.nodes.size ∧
      l.find? (g.isKind · .loop) = g.enclosingLoop? n) ∧
    (∃ tours, SubtreeIndex.Sweeps g g.roots .empty tours ix ∧
      List.Forall₂ (fun r tour => tour.Perm (.enter r :: tour.flatMap (SubtreeIndex.pushed g)))
        g.roots tours ∧
      List.Forall₂ (fun r tour => SubtreeIndex.Tours tour (g.tree r)) g.roots tours ∧
      SubtreeIndex.Tours tours.flatten g.indices) ∧
    (∀ n, ∀ c ∈ g.children n, (ix.subtree c).length < (ix.subtree n).length) ∧
    (∀ m other n e, g.isKind n .function → Workload.estimate m g other n e =
      Workload.addAll (Workload.estimate m g other) 0 (g.children n) e) := by
  intro b g ix
  have hb : b.Sound := sound_run calls
  have hg : g.Sound := hb.graph
  have hx : ix.Exact g := SubtreeIndex.exact_build hg
  -- the tours of the roots are those of the walk that builds the index
  obtain ⟨_, _, _, _, tours, hsweeps, hflat, htours⟩ := SubtreeIndex.sweeps_build hg
  exact ⟨fun p hp c => hb.ascends hp c, hg.ascends,
    ⟨tours, hsweeps, hsweeps.perm, htours, hflat⟩,
    fun n c hc => hx.length_subtree_lt hg hc,
    fun m other n e hn => Workload.estimate_of_function hg hn⟩

end UnitGraph
