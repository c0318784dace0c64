import Mathlib
import UnitGraph.Analysis.Workload
import UnitGraph.Proofs.Analysis.Iterations
import UnitGraph.Proofs.Count
import UnitGraph.Proofs.Graph.Indexing

/-!
# The workload as one clamped number

Workloads are sums and products that stop at the largest count, nested through functions.  The
same rules on numbers without a bound have one solution on a containment forest, and the estimate
of a node is its value there, clamped once.
-/

namespace UnitGraph

/-! ## How often a unit counts -/

theorem occursIn_iff {part whole : List Char} : occursIn part whole ↔ part <:+: whole := by
  induction whole with
  | nil => rw [occursIn, List.isEmpty_iff, List.infix_nil]
  | cons c whole ih =>
    rw [occursIn, Bool.or_eq_true, List.isPrefixOf_iff_prefix, ih, List.infix_cons_iff]

namespace Markers

variable {m : Markers}

def times (m : Markers) (iterations : Count) (block : String) : Nat :=
  if m.increment.toList <:+: block.toList then 1
  else if m.condition.toList <:+: block.toList then iterations.toNat + 1
  else iterations.toNat

def weigh (m : Markers) (iterations : Count) (unit : Node) : Nat :=
  unit.instructions.toNat * m.times iterations (unit.block?.getD "")

theorem multiplier_classify (iterations : Count) (block : String) :
    (BlockRole.classify block m.increment m.condition).multiplier iterations =
      .clamp (m.times iterations block) := by
  rw [BlockRole.classify, times]
  simp only [occursIn_iff]
  split
  · rfl
  · split
    · rfl
    · exact (Count.clamp_toNat iterations).symm

theorem weighted_eq (iterations : Count) (unit : Node) :
    m.weighted iterations unit = .clamp (m.weigh iterations unit) := by
  rw [weighted, multiplier_classify, ← Count.clamp_toNat unit.instructions, Count.mul_clamp, weigh]

end Markers

/-! ## The units in a subtree -/

namespace Graph

variable {g : Graph} {n u : Nat}

def unitsIn (g : Graph) (n : Nat) : List Nat :=
  (g.ofKind .unit).filter fun u => u = n ∨ n ∈ g.ancestors u

def unitsUnder (g : Graph) (n : Nat) : List Nat :=
  (g.ofKind .unit).filter fun u => n ∈ g.ancestors u

theorem nodup_unitsIn (g : Graph) (n : Nat) : (g.unitsIn n).Nodup :=
  (List.nodup_range.filter _).filter _

theorem Sound.mem_unitsIn (hg : g.Sound) :
    u ∈ g.unitsIn n ↔ g.isKind u .unit ∧ Climbs g.parent? u n := by
  rw [unitsIn, List.mem_filter, mem_ofKind, decide_eq_true_iff, hg.mem_ancestors]
  apply and_congr_right
  intro _
  show _ ↔ Relation.ReflTransGen (fun a b => g.parent? a = some b) u n
  rw [Relation.ReflTransGen.cases_head_iff]

/-- The index finds the units in a subtree, in an order of its own. -/
theorem Sound.perm_unitsIn (hg : g.Sound) {ix : SubtreeIndex} (hx : ix.Exact g) (n : Nat) :
    (ix.subtreeOfKind g n .unit).Perm (g.unitsIn n) := by
  apply (List.perm_ext_iff_of_nodup ((hx.nodup_subtree hg n).filter _) (g.nodup_unitsIn n)).mpr
  intro u
  rw [List.mem_filter, hg.mem_unitsIn, hx.mem_subtree hg, and_comm]
  apply and_congr_right
  intro hu
  exact and_iff_right_of_imp fun hc => hg.forest.lt_of_climbs hc (lt_of_isKind hu)

/-- A loop is no unit, so the units in its subtree are those under it. -/
theorem unitsIn_of_loop (hn : g.isKind n .loop) : g.unitsIn n = g.unitsUnder n := by
  apply List.filter_congr
  intro u hu
  have hne : u ≠ n := by
    rintro rfl
    exact NodeKind.noConfusion (isKind_unique hn (mem_ofKind.mp hu))
  rw [decide_eq_decide, or_iff_right hne]

theorem mem_unitsUnder : u ∈ g.unitsUnder n ↔ g.isKind u .unit ∧ n ∈ g.ancestors u := by
  rw [unitsUnder, List.mem_filter, mem_ofKind, decide_eq_true_iff]

theorem Sound.perm_unitsUnder (hg : g.Sound) {ix : SubtreeIndex} (hx : ix.Exact g)
    (hn : g.isKind n .loop) : (ix.subtreeOfKind g n .unit).Perm (g.unitsUnder n) := by
  rw [← unitsIn_of_loop hn]
  exact hg.perm_unitsIn hx n

end Graph

namespace Workload

variable {m : Markers} {g : Graph} {ix : SubtreeIndex} {e e' : Estimator} {w : Nat → Nat}
  {n depth : Nat} {node : Node}

/-! ## The rules without a bound -/

def weight (m : Markers) (g : Graph) (iterations : Nat → Count) (n : Nat) (below : List Nat) :
    Nat :=
  match (g.node? n).map Node.payload with
  | some (.unit instructions _) => instructions.toNat
  | some (.loop ..) => (((g.unitsUnder n).filterMap g.node?).map (m.weigh (iterations n))).sum
  | some (.function _) => below.sum
  | some .dummy | none => 0

def Exact (m : Markers) (g : Graph) (iterations : Nat → Count) (w : Nat → Nat) : Prop :=
  ∀ n, w n = weight m g iterations n ((g.children n).map w)

theorem existsUnique_exact (hg : g.Sound) (m : Markers) (iterations : Nat → Count) :
    ∃! w, Exact m g iterations w :=
  hg.forest.existsUnique_recursion hg.siblings (weight m g iterations)

theorem ofLoop_eq_clamp (m : Markers) (g : Graph) (ix : SubtreeIndex) (iterations : Count)
    (n : Nat) :
    ofLoop m g ix iterations n = .clamp ((units g ix n).map (m.weigh iterations)).sum := by
  have hweighted : m.weighted iterations = fun unit => .clamp (m.weigh iterations unit) :=
    funext (m.weighted_eq iterations)
  rw [ofLoop, hweighted, Count.sum_clamp]

theorem ofLoop_eq (hg : g.Sound) (hx : ix.Exact g) (iterations : Count) (hn : g.isKind n .loop) :
    ofLoop m g ix iterations n =
      .clamp (((g.unitsUnder n).filterMap g.node?).map (m.weigh iterations)).sum := by
  rw [ofLoop_eq_clamp, units]
  exact congrArg _ (((hg.perm_unitsUnder hx hn).filterMap _).map _).sum_eq

/-! ## The estimate follows the rules -/

/-- The estimate is the clamped number, and leaves an estimator that answers like the first one. -/
def Finds (g : Graph) (e : Estimator) (a : Nat) (found : Except GraphError Count × Estimator) :
    Prop :=
  found.1 = .ok (.clamp a) ∧ e.Agree g found.2

theorem addAll_finds {estimate : Nat → Estimate} {ns : List Nat}
    (hns : ∀ n ∈ ns, ∀ e', e.Agree g e' → Finds g e (w n) (estimate n e')) (a : Nat)
    (he : e.Agree g e') :
    Finds g e (a + (ns.map w).sum) (addAll estimate (.clamp a) ns e') := by
  induction ns generalizing a e' with
  | nil => exact ⟨rfl, he⟩
  | cons n ns ih =>
    rw [List.forall_mem_cons] at hns
    rcases hns.1 e' he with ⟨hfound, hagree⟩
    have heq : estimate n e' = (.ok (.clamp (w n)), (estimate n e').2) := Prod.ext hfound rfl
    rw [addAll, heq]
    show Finds g e _ (addAll estimate (Count.add (.clamp a) (.clamp (w n))) ns (estimate n e').2)
    rw [Count.add_clamp, List.map_cons, List.sum_cons, ← Nat.add_assoc]
    exact ih hns.2 (a + w n) hagree

theorem within_missing (hn : g.node? n = none) :
    within m g ix depth n e = (.error (.nodeNotFound n), e) := by
  unfold within
  simp only [Graph.require_of_none hn]

theorem within_unit {instructions : Count} {block : String} (hn : g.node? n = some node)
    (hp : node.payload = .unit instructions block) :
    within m g ix depth n e = (.ok instructions, e) := by
  unfold within
  simp only [Graph.require_of_some hn, hp]

theorem within_loop {doAll reduction : Bool} (hn : g.node? n = some node)
    (hp : node.payload = .loop doAll reduction) :
    within m g ix depth n e =
      (.ok (ofLoop m g ix (e.answer g n) n), (e.effective g n).2) := by
  unfold within
  simp only [Graph.require_of_some hn, hp]
  rfl

theorem within_dummy (hn : g.node? n = some node) (hp : node.payload = .dummy) :
    within m g ix depth n e = (.ok 0, e) := by
  unfold within
  simp only [Graph.require_of_some hn, hp]

theorem within_function {name : String} (hn : g.node? n = some node)
    (hp : node.payload = .function name) :
    within m g ix (depth + 1) n e = addAll (within m g ix depth) 0 (g.children n) e := by
  unfold within
  simp only [Graph.require_of_some hn, hp]

/-- With more depth than there is room below a node, its estimate is its number. -/
theorem within_finds (hg : g.Sound) (hx : ix.Exact g) (hw : Exact m g (e.answer g) w)
    (hn : n < g.nodes.size) (hdepth : Forest.room g.nodes.size g.parent? n < depth)
    (he : e.Agree g e') : Finds g e (w n) (within m g ix depth n e') := by
  induction depth generalizing n e' with
  | zero => exact absurd hdepth (Nat.not_lt_zero _)
  | succ depth ih =>
    rcases Graph.exists_node? hn with ⟨node, hnode⟩
    rw [hw n, weight, hnode, Option.map_some]
    cases hp : node.payload with
    | unit instructions block =>
      rw [within_unit hnode hp]
      exact ⟨congrArg _ (Count.clamp_toNat instructions).symm, he⟩
    | loop doAll reduction =>
      have hkind : g.isKind n .loop :=
        Graph.isKind_iff.mpr ⟨node, hnode, by rw [Node.kind, hp]; rfl⟩
      rw [within_loop hnode hp, he n, ofLoop_eq hg hx _ hkind]
      exact ⟨rfl, he.trans (Estimator.agree_effective g e' n)⟩
    | function name =>
      rw [within_function hnode hp]
      have hchildren : ∀ c ∈ g.children n, ∀ e', e.Agree g e' →
          Finds g e (w c) (within m g ix depth c e') := by
        intro c hc e'' he''
        have hparent := hg.mem_children_iff.mp hc
        -- the depth goes down by one, the room by at least one
        have hroom := hg.forest.room_lt hparent
        exact ih (hg.forest.below c n hparent).1 (by omega) he''
      have hfinds := addAll_finds hchildren 0 he
      rw [Nat.zero_add] at hfinds
      exact hfinds
    | dummy =>
      rw [within_dummy hnode hp]
      exact ⟨rfl, he⟩

/-- The estimate of a node is its clamped number; a number that is no node has none. -/
theorem estimate_eq (hg : g.Sound) (hx : ix.Exact g) (hw : Exact m g (e.answer g) w) (n : Nat) :
    (estimate m g ix n e).1 =
      if n < g.nodes.size then .ok (.clamp (w n)) else .error (.nodeNotFound n) := by
  rw [estimate]
  by_cases hn : n < g.nodes.size
  · rw [if_pos hn]
    exact (within_finds hg hx hw hn (Forest.room_lt_size hn) (.refl e)).1
  · rw [if_neg hn, within_missing (Graph.node?_of_ge (Nat.not_lt.mp hn))]

/-! ## The order of the children -/

section Reordered

variable {es : Array Edge}

theorem answer_reordered (hg : g.Sound) (hes : es.Perm g.edges) (e : Estimator) :
    e.answer (g.reordered es) = e.answer g := by
  funext n
  have hparent : e.parent (g.reordered es) n = e.parent g n := by
    rw [Estimator.parent, Estimator.parent, Graph.enclosingLoop?, Graph.enclosingLoop?,
      Graph.ancestors_reordered hg hes]
    rfl
  rw [Estimator.answer, Estimator.answer, Estimator.effective, Estimator.effective, hparent]
  rfl

/-- Where the children of a function come in another order, the same numbers follow the rules. -/
theorem Exact.reordered {iterations : Nat → Count} (hg : g.Sound) (hes : es.Perm g.edges)
    (h : Exact m g iterations w) : Exact m (g.reordered es) iterations w := by
  intro n
  have hunits : (g.reordered es).unitsUnder n = g.unitsUnder n := by
    rw [Graph.unitsUnder, Graph.unitsUnder]
    exact List.filter_congr fun u _ => by rw [Graph.ancestors_reordered hg hes]
  have hsum : (((g.reordered es).children n).map w).sum = ((g.children n).map w).sum :=
    ((Graph.children_reordered hes n).map w).sum_eq
  rw [h n, weight, weight, hunits, hsum]
  rfl

end Reordered

/-! ## The estimates of a built graph -/

/-- The rules on numbers without a bound have one solution on a built graph.  The estimate of a node
is its clamped value there, a number that is no node is an error, and attaching the same children in
another order changes no estimate. -/
theorem estimate_exact (calls : List Builder.Call) (m : Markers) (e : Estimator) :
    let g := Graph.ofCalls calls
    let workload := fun g n => (estimate m g (.build g) n e).1
    ∃ w : Nat → Nat, Exact m g (e.answer g) w ∧
      (∀ w', Exact m g (e.answer g) w' → w' = w) ∧
      (∀ n, workload g n =
        if n < g.nodes.size then .ok (.clamp (w n)) else .error (.nodeNotFound n)) ∧
      ∀ es : Array Edge, es.Perm g.edges → workload (g.reordered es) = workload g := by
  intro g workload
  have hg : g.Sound := Graph.sound_ofCalls calls
  rcases existsUnique_exact hg m (e.answer g) with ⟨w, hw, hunique⟩
  refine ⟨w, hw, hunique, estimate_eq hg (SubtreeIndex.exact_build hg) hw, fun es hes => ?_⟩
  funext n
  have hg' := hg.reordered hes
  -- the exact weights do not know of the order of the edges, so they serve both graphs
  have hw' : Exact m (g.reordered es) (e.answer (g.reordered es)) w := by
    rw [answer_reordered hg hes]
    exact hw.reordered hg hes
  exact (estimate_eq hg' (SubtreeIndex.exact_build hg') hw' n).trans
    (estimate_eq hg (SubtreeIndex.exact_build hg) hw n).symm

end Workload

end UnitGraph
