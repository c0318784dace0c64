import UnitGraph.Proofs.Analysis.Workload

/-!
# Static totals

The total of a node is the sum of the instructions of all units in its subtree, which the index
lists in one piece.  Taken apart along the tree it is the node's own count and the totals of its
children.  The workload of a loop lies between the total and the total taken once more than the loop
iterates, whatever the blocks of its units are called.
-/

namespace UnitGraph

/-! ## Instructions by number -/

namespace Graph

variable {g : Graph} {n : Nat}

def instructions (g : Graph) (n : Nat) : Count :=
  (g.node? n).elim 0 Node.instructions

theorem instructions_of_node? {node : Node} (h : g.node? n = some node) :
    g.instructions n = node.instructions := by
  rw [instructions, h, Option.elim_some]

theorem instructions_of_not_unit (h : ¬g.isKind n .unit) : g.instructions n = 0 := by
  cases hn : g.node? n with
  | none => rw [instructions, hn, Option.elim_none]
  | some node =>
    rw [instructions_of_node? hn, Node.instructions]
    split
    · rename_i hp
      exact absurd (isKind_iff.mpr ⟨node, hn, by rw [Node.kind, hp]; rfl⟩) h
    · rfl

theorem sum_instructions_units (g : Graph) (ns : List Nat) :
    Count.sum ((ns.filter (g.isKind · .unit)).map g.instructions) =
      Count.sum (ns.map g.instructions) := by
  induction ns with
  | nil => rfl
  | cons n ns ih =>
    rw [List.map_cons, Count.sum_cons, List.filter_cons]
    by_cases hn : g.isKind n .unit
    · rw [if_pos hn, List.map_cons, Count.sum_cons, ih]
    · rw [if_neg hn, instructions_of_not_unit hn, Count.zero_add, ih]

theorem map_instructions_filterMap {ns : List Nat} (h : ∀ n ∈ ns, g.isKind n .unit) :
    (ns.filterMap g.node?).map Node.instructions = ns.map g.instructions := by
  induction ns with
  | nil => rfl
  | cons n ns ih =>
    rw [List.forall_mem_cons] at h
    obtain ⟨node, hnode, _⟩ := isKind_iff.mp h.1
    rw [List.filterMap_cons_some hnode, List.map_cons, List.map_cons, ih h.2,
      instructions_of_node? hnode]

end Graph

namespace Markers

variable {m : Markers} {iterations : Count}

theorem times_le (m : Markers) (iterations : Count) (block : String) :
    m.times iterations block ≤ iterations.toNat + 1 := by
  rw [times]
  split
  · omega
  · split <;> omega

/-- In a loop that runs, every unit counts. -/
theorem one_le_times (h : 1 ≤ iterations.toNat) (block : String) :
    1 ≤ m.times iterations block := by
  rw [times]
  split
  · omega
  · split <;> omega

end Markers

namespace Workload

variable {m : Markers} {g : Graph} {ix : SubtreeIndex} {n : Nat} {iterations : Count}

/-! ## The total along the tree -/

theorem totalInstructions_eq_units (g : Graph) (ix : SubtreeIndex) (n : Nat) :
    totalInstructions g ix n = Count.sum ((ix.subtreeOfKind g n .unit).map g.instructions) := by
  rw [totalInstructions, units, Graph.map_instructions_filterMap]
  intro u hu
  exact (List.mem_filter.mp hu).2

theorem totalInstructions_eq_subtree (g : Graph) (ix : SubtreeIndex) (n : Nat) :
    totalInstructions g ix n = Count.sum ((ix.subtree n).map g.instructions) := by
  rw [totalInstructions_eq_units]
  exact g.sum_instructions_units (ix.subtree n)

/-- The total is the clamped sum over the units in the subtree. -/
theorem totalInstructions_eq_clamp (hg : g.Sound) (hx : ix.Exact g) (n : Nat) :
    totalInstructions g ix n =
      .clamp ((g.unitsIn n).map fun u => (g.instructions u).toNat).sum := by
  rw [totalInstructions_eq_units, Count.sum_perm ((hg.perm_unitsIn hx n).map g.instructions),
    Count.sum_eq_clamp, List.map_map]
  rfl

/-- The flat scan of the index adds up the tree. -/
theorem totalInstructions_eq_children (hg : g.Sound) (hx : ix.Exact g) (n : Nat) :
    totalInstructions g ix n =
      Count.sum (g.instructions n :: (g.children n).map (totalInstructions g ix)) := by
  by_cases hn : n < g.nodes.size
  · have htotal : totalInstructions g ix = fun c => Count.sum ((ix.subtree c).map g.instructions) :=
      funext (totalInstructions_eq_subtree g ix)
    rw [totalInstructions_eq_subtree, hx.subtree_eq hg hn, List.map_cons, List.map_flatMap,
      Count.sum_cons, Count.sum_cons, Count.sum_flatMap, htotal]
  · have hge := Nat.not_lt.mp hn
    rw [totalInstructions_eq_subtree, hx.subtree_of_ge hge, hg.children_of_ge hge,
      Graph.instructions, Graph.node?_of_ge hge]
    rfl

/-! ## Total and workload of a loop -/

theorem totalInstructions_eq_sum (g : Graph) (ix : SubtreeIndex) (n : Nat) :
    totalInstructions g ix n =
      .clamp ((units g ix n).map fun unit => unit.instructions.toNat).sum := by
  rw [totalInstructions, Count.sum_eq_clamp, List.map_map]
  rfl

theorem ofLoop_le (m : Markers) (g : Graph) (ix : SubtreeIndex) (iterations : Count) (n : Nat) :
    ofLoop m g ix iterations n ≤
      Count.mul (totalInstructions g ix n) (Count.add iterations 1) := by
  have hadd : Count.add iterations 1 = .clamp (iterations.toNat + 1) := rfl
  -- both sides are one clamp of an exact sum, so the sums are compared term by term
  rw [ofLoop_eq_clamp, totalInstructions_eq_sum, hadd, Count.mul_clamp, ← List.sum_map_mul_right]
  apply Count.clamp_mono
  apply List.sum_le_sum
  intro unit _
  exact Nat.mul_le_mul_left _ (m.times_le iterations _)

theorem le_ofLoop (h : 1 ≤ iterations) :
    totalInstructions g ix n ≤ ofLoop m g ix iterations n := by
  rw [ofLoop_eq_clamp, totalInstructions_eq_sum]
  apply Count.clamp_mono
  apply List.sum_le_sum
  intro unit _
  have htimes := Markers.one_le_times (m := m) (UInt64.le_iff_toNat_le.mp h)
  exact Nat.le_mul_of_pos_right _ (htimes _)

theorem estimate_loop (e : Estimator) (hn : g.isKind n .loop) :
    (estimate m g ix n e).1 = .ok (ofLoop m g ix (e.answer g n) n) := by
  obtain ⟨node, hnode, hkind⟩ := Graph.isKind_iff.mp hn
  rw [estimate]
  cases hp : node.payload with
  | loop doAll reduction => rw [within_loop hnode hp]
  | unit => rw [Node.kind, hp] at hkind; cases hkind
  | function => rw [Node.kind, hp] at hkind; cases hkind
  | dummy => rw [Node.kind, hp] at hkind; cases hkind

/-- The total of a node is the exact number of instructions of the units in its subtree, clamped
once; it is also the sum, stopped at the largest count wherever that is passed, of its own count and
of the totals of its children, in any order.  A loop has a workload, which is at most the total
times one more than its effective iterations, and at least the total if it runs at all. -/
theorem totalInstructions_exact (calls : List Builder.Call) (m : Markers) (e : Estimator) :
    let g := Graph.ofCalls calls
    let total := totalInstructions g (.build g)
    (∀ n, total n = .clamp ((g.unitsIn n).map fun u => (g.instructions u).toNat).sum) ∧
    (∀ n, (g.unitsIn n).Nodup ∧
      ∀ u, u ∈ g.unitsIn n ↔ g.isKind u .unit ∧ Climbs g.parent? u n) ∧
    (∀ n counts, counts.Perm (g.instructions n :: (g.children n).map total) →
      total n = Count.sum counts) ∧
    ∀ l, g.isKind l .loop → ∃ w, (estimate m g (.build g) l e).1 = .ok w ∧
      w ≤ Count.mul (total l) (Count.add (e.effective g l).1 1) ∧
      (1 ≤ (e.effective g l).1 → total l ≤ w) := by
  intro g total
  have hg : g.Sound := Graph.sound_ofCalls calls
  have hx : (SubtreeIndex.build g).Exact g := SubtreeIndex.exact_build hg
  refine ⟨totalInstructions_eq_clamp hg hx, fun n => ⟨g.nodup_unitsIn n, fun u => hg.mem_unitsIn⟩,
    fun n counts hcounts => ?_, fun l hl => ?_⟩
  · -- saturating sums do not depend on the order
    rw [Count.sum_perm hcounts]
    exact totalInstructions_eq_children hg hx n
  · exact ⟨_, estimate_loop e hl, ofLoop_le m g _ _ l, le_ofLoop⟩

end Workload

end UnitGraph
