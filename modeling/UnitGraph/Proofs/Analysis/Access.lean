import UnitGraph.Analysis.Dependences
import UnitGraph.Proofs.Analysis.Termination

/-!
# A graph with the index of another graph

A graph and an index are separate arguments everywhere, so nothing says that they belong together.
Here every question is read once more in a way that may fail: at a node that does not exist, at a
slice that is not within the order, at a division by zero, and at a walk or a recursion that takes
more rounds than there are nodes.  For a built graph and the index of any built graph nothing of
that happens, and the questions have the answers that they have without the checks.
-/

namespace UnitGraph

/-- Every span of the index holds its node at least and lies within the order. -/
def SubtreeIndex.InRange (ix : SubtreeIndex) : Prop :=
  ∀ (n : Nat) (span : Span), ix.spans[n]? = some span →
    span.start < span.stop ∧ span.stop ≤ ix.order.size

/-- The spans of an index are those of its own order, whatever graph it is read with. -/
theorem SubtreeIndex.Exact.inRange {g : Graph} {ix : SubtreeIndex} (hx : ix.Exact g) :
    ix.InRange := by
  intro n span hspan
  by_cases hn : n < g.nodes.size
  · obtain ⟨_, hspan', before, sub, after, horder, hsub, rfl⟩ := hx.span n hn
    obtain ⟨below, _, rfl⟩ := hsub.exists_of_single
    rw [hspan] at hspan'
    cases hspan'
    rw [← Array.length_toList, horder, List.length_append, List.length_append, List.length_cons]
    show before.length < before.length + (below.length + 1) ∧
      before.length + (below.length + 1) ≤ before.length + (below.length + 1) + after.length
    omega
  · rw [hx.missing n (Nat.not_lt.mp hn)] at hspan
    cases hspan

namespace Checked

variable {b : Builder} {g : Graph} {own ix : SubtreeIndex} {c : Classifier} {m : Markers}
  {n limit depth : Nat}

/-! ## Nodes that have to exist -/

def test (g : Graph) (q : Node → Bool) (n : Nat) : Option Bool :=
  (g.node? n).map q

def childrenOfKind (g : Graph) (n : Nat) (kind : NodeKind) : Option (List Nat) :=
  (g.children n).filterM (test g (·.kind = kind))

def ofKind (g : Graph) (kind : NodeKind) : Option (List Nat) :=
  g.indices.filterM (test g (·.kind = kind))

def findFunction (g : Graph) (name : String) : Option (Option Nat) :=
  g.indices.findM? (test g fun node => node.kind = .function && node.displayName = name)

/-- Attaches a node; the parent that a refusal names has to exist. -/
def addChild (b : Builder) (parent child : Nat) : Option (Except GraphError Builder) :=
  match b.idOf parent, b.idOf child with
  | .error e, _ => some (.error e)
  | .ok _, .error e => some (.error e)
  | .ok parentId, .ok childId =>
    match b.parents[child]? with
    | some existing =>
      (b.graph.node? existing).map fun node => .error (.multipleParents childId parentId node.id)
    | none => some (b.addChild parent child)

def addDependence (b : Builder) (source target : Nat) (d : Dependence) :
    Option (Except GraphError Builder) :=
  match b.idOf source, b.idOf target with
  | .error e, _ => some (.error e)
  | .ok _, .error e => some (.error e)
  | .ok sourceId, .ok targetId =>
    (b.graph.node? source).bind fun s =>
      match Builder.requireUnit sourceId targetId s with
      | .error e => some (.error e)
      | .ok () =>
        (b.graph.node? target).map fun t =>
          (Builder.requireUnit sourceId targetId t).map fun _ =>
            b.pushEdge ⟨source, target, .dependence d⟩

theorem filterAuxM_eq {p : Nat → Option Bool} {q : Nat → Bool} {ns : List Nat}
    (h : ∀ n ∈ ns, p n = some (q n)) (acc : List Nat) :
    ns.filterAuxM p acc = some ((ns.filter q).reverse ++ acc) := by
  induction ns generalizing acc with
  | nil => rfl
  | cons n ns ih =>
    rw [List.forall_mem_cons] at h
    rw [List.filterAuxM, h.1, Option.bind_eq_bind, Option.bind_some, ih h.2, List.filter_cons]
    cases q n with
    | true =>
      rw [cond_true, if_pos rfl, List.reverse_cons, List.append_assoc, List.singleton_append]
    | false => rw [cond_false, if_neg Bool.false_ne_true]

theorem filterM_eq {p : Nat → Option Bool} {q : Nat → Bool} {ns : List Nat}
    (h : ∀ n ∈ ns, p n = some (q n)) : ns.filterM p = some (ns.filter q) := by
  rw [List.filterM, filterAuxM_eq h, List.append_nil]
  exact congrArg some (List.reverse_reverse _)

theorem findM?_eq {p : Nat → Option Bool} {q : Nat → Bool} {ns : List Nat}
    (h : ∀ n ∈ ns, p n = some (q n)) : ns.findM? p = some (ns.find? q) := by
  induction ns with
  | nil => rfl
  | cons n ns ih =>
    rw [List.forall_mem_cons] at h
    rw [List.findM?, h.1, List.find?_cons]
    cases q n with
    | true => rfl
    | false => exact ih h.2

theorem test_kind (hn : n < g.nodes.size) (kind : NodeKind) :
    test g (·.kind = kind) n = some (g.isKind n kind) := by
  obtain ⟨node, hnode⟩ := Graph.exists_node? hn
  rw [test, Graph.isKind, Graph.kind?, hnode]
  simp only [Option.map_some, Option.some.injEq]

theorem childrenOfKind_eq (hg : g.Sound) (n : Nat) (kind : NodeKind) :
    childrenOfKind g n kind = some (g.childrenOfKind n kind) :=
  filterM_eq fun child hchild =>
    test_kind (hg.forest.below child n (hg.mem_children_iff.mp hchild)).1 kind

theorem ofKind_eq (g : Graph) (kind : NodeKind) : ofKind g kind = some (g.ofKind kind) :=
  filterM_eq fun _ hn => test_kind (Graph.mem_indices.mp hn) kind

theorem findFunction_eq (g : Graph) (name : String) :
    findFunction g name = some (g.findFunction? name) := by
  rw [Graph.findFunction?, Graph.functions, Graph.ofKind, List.find?_filter]
  refine findM?_eq fun n hn => ?_
  obtain ⟨node, hnode⟩ := Graph.exists_node? (Graph.mem_indices.mp hn)
  rw [test, Graph.isKind, Graph.kind?, hnode]
  simp only [Option.map_some, Option.some.injEq, Option.any_some, Bool.decide_and,
    Bool.decide_eq_true]

theorem addChild_eq (hb : b.Sound) (parent child : Nat) :
    addChild b parent child = some (b.addChild parent child) := by
  rw [addChild]
  cases hp : b.idOf parent with
  | error e => rw [Builder.addChild, hp]; rfl
  | ok parentId =>
    cases hc : b.idOf child with
    | error e => rw [Builder.addChild, hp, hc]; rfl
    | ok childId =>
      -- the one access that could fail is to the parent that stands in the way
      cases hr : b.parents[child]? with
      | none => rfl
      | some existing =>
        rw [hb.parents] at hr
        obtain ⟨node, hnode⟩ := Graph.exists_node? (hb.graph.forest.below child existing hr).2
        rw [← hb.parents] at hr
        simp only [Builder.addChild, hp, hc, hr, hnode]
        rfl

theorem addDependence_eq (b : Builder) (source target : Nat) (d : Dependence) :
    addDependence b source target d = some (b.addDependence source target d) := by
  rw [addDependence, Builder.addDependence, Builder.idOf, Builder.idOf, Graph.require,
    Graph.require]
  cases hs : b.graph.node? source with
  | none => rfl
  | some s =>
    cases ht : b.graph.node? target with
    | none => rfl
    | some t =>
      -- both ends are there from here on, and only their kinds are looked at
      simp only [Except.map, Option.bind_some, Option.map_some]
      cases hsource : Builder.requireUnit s.id t.id s with
      | error e => simp only [bind, Except.bind, hsource]
      | ok =>
        simp only [bind, Except.bind, hsource]
        cases Builder.requireUnit s.id t.id t with
        | error e => rfl
        | ok => rfl

/-! ## Slices that have to be in range -/

def slice (ix : SubtreeIndex) (span : Span) : Option (List Nat) :=
  if span.start ≤ span.stop ∧ span.stop ≤ ix.order.size then
    some (ix.order.extract span.start span.stop).toList
  else
    none

def subtree (ix : SubtreeIndex) (root : Nat) : Option (List Nat) :=
  match ix.spans[root]? with
  | some span => slice ix span
  | none => some []

def subtreeOfKind (ix : SubtreeIndex) (g : Graph) (root : Nat) (kind : NodeKind) :
    Option (List Nat) :=
  (subtree ix root).map (List.filter (g.isKind · kind))

theorem subtree_eq (hix : ix.InRange) (root : Nat) : subtree ix root = some (ix.subtree root) := by
  rw [subtree, SubtreeIndex.subtree]
  cases hspan : ix.spans[root]? with
  | none => rfl
  | some span =>
    obtain ⟨hlt, hle⟩ := hix root span hspan
    exact if_pos ⟨Nat.le_of_lt hlt, hle⟩

-- a span that ends behind the order is refused, not cut
example : slice .empty ⟨0, 1⟩ = none := rfl

theorem subtreeOfKind_eq (hix : ix.InRange) (g : Graph) (root : Nat) (kind : NodeKind) :
    subtreeOfKind ix g root kind = some (ix.subtreeOfKind g root kind) := by
  rw [subtreeOfKind, subtree_eq hix, Option.map_some, SubtreeIndex.subtreeOfKind]

/-! ## Dependences -/

def scope (c : Classifier) (enclosing : Nat) : Option LoopScope :=
  (subtreeOfKind c.index c.graph enclosing .loop).bind fun loops =>
    (subtreeOfKind c.index c.graph enclosing .unit).map fun units =>
      ⟨enclosing, loops.filterMap fun l => (c.graph.node? l).map Node.line, units⟩

def hasDependency (c : Classifier) (source target : Nat) : Option Bool :=
  if source = target then
    some false
  else
    (subtree c.index source).map fun under => under.any fun n =>
      (c.graph.outgoingOfKind n .raw).any fun d => c.index.contains target d.target

def isLoopIndex (c : Classifier) (edge enclosing : Nat) : Option Bool :=
  match c.graph.dependence? edge with
  | some d => (scope c enclosing).map (c.isLoopIndexIn · d)
  | none => some false

def isReadOnlyInLoopBody (c : Classifier) (edge enclosing : Nat) : Option Bool :=
  match c.graph.dependence? edge with
  | some d => (scope c enclosing).map (c.isReadOnlyIn · d.dependence.var)
  | none => some false

def nonBenignDependencies (c : Classifier) (n enclosing : Nat) : Option (List Nat) :=
  (scope c enclosing).bind fun s =>
    (subtreeOfKind c.index c.graph n .unit).map fun units =>
      sortDistinct (· ≤ ·)
        (c.nonBenignTargets s ∅ (units.flatMap fun unit => c.graph.outgoingOfKind unit .raw))

def hasDependencyIgnoringBenign (c : Classifier) (source target enclosing : Nat) : Option Bool :=
  if source = target then
    some false
  else
    (nonBenignDependencies c source enclosing).map (List.any · (c.index.contains target))

theorem scope_eq (hix : c.index.InRange) (enclosing : Nat) :
    scope c enclosing = some (c.scope enclosing) := by
  rw [scope, subtreeOfKind_eq hix, subtreeOfKind_eq hix, Option.bind_some, Option.map_some,
    Classifier.scope]

theorem unlessSame_eq (source target : Nat) (found : Bool) :
    (if source = target then some false else some found) = some (source != target && found) := by
  by_cases h : source = target
  · rw [if_pos h, bne, beq_iff_eq.mpr h, Bool.not_true, Bool.false_and]
  · rw [if_neg h, bne, beq_eq_false_iff_ne.mpr h, Bool.not_false, Bool.true_and]

theorem hasDependency_eq (hix : c.index.InRange) (source target : Nat) :
    hasDependency c source target = some (c.hasDependency source target) := by
  rw [hasDependency, Classifier.hasDependency, subtree_eq hix, Option.map_some, unlessSame_eq]

theorem isLoopIndex_eq (hix : c.index.InRange) (edge enclosing : Nat) :
    isLoopIndex c edge enclosing = some (c.isLoopIndex edge enclosing) := by
  rw [isLoopIndex, Classifier.isLoopIndex, scope_eq hix]
  cases c.graph.dependence? edge <;> rfl

theorem isReadOnlyInLoopBody_eq (hix : c.index.InRange) (edge enclosing : Nat) :
    isReadOnlyInLoopBody c edge enclosing = some (c.isReadOnlyInLoopBody edge enclosing) := by
  rw [isReadOnlyInLoopBody, Classifier.isReadOnlyInLoopBody, scope_eq hix]
  cases c.graph.dependence? edge <;> rfl

theorem nonBenignDependencies_eq (hix : c.index.InRange) (n enclosing : Nat) :
    nonBenignDependencies c n enclosing = some (c.nonBenignDependencies n enclosing) := by
  rw [nonBenignDependencies, scope_eq hix, subtreeOfKind_eq hix, Option.bind_some,
    Option.map_some, Classifier.nonBenignDependencies]

theorem hasDependencyIgnoringBenign_eq (hix : c.index.InRange) (source target enclosing : Nat) :
    hasDependencyIgnoringBenign c source target enclosing =
      some (c.hasDependencyIgnoringBenign source target enclosing) := by
  rw [hasDependencyIgnoringBenign, Classifier.hasDependencyIgnoringBenign,
    nonBenignDependencies_eq hix, Option.map_some, unlessSame_eq]

/-! ## Iterations -/

def search (g : Graph) : (limit : Nat) → Option Nat → Option (Option Nat)
  | _, none => some none
  | 0, some _ => none
  | limit + 1, some n =>
    if g.isKind n .loop then some (some n) else search g limit (g.parent? n)

def enclosingLoop (g : Graph) (n : Nat) : Option (Option Nat) :=
  search g g.nodes.size (g.parent? n)

def divide (a b : Count) : Option Count :=
  if b = 0 then none else some (a / b)

def perInvocation (raw parent : Count) : Option Count :=
  if raw < parent then some raw
  else if raw = 0 ∨ parent = 0 then some 0
  else divide raw parent

def effective (e : Estimator) (g : Graph) (n : Nat) : Option (Count × Estimator) :=
  match e.memo[n]? with
  | some known => some (known, e)
  | none =>
    (enclosingLoop g n).bind fun around =>
      (perInvocation (e.raw g n) (around.elim 1 fun loop => max (e.raw g loop) 1)).map fun count =>
        (count, { e with memo := e.memo.insert n count })

theorem search_eq {start : Option Nat} {l : List Nat}
    (hl : Passes (g.isKind · .loop) g.parent? start l) (hlimit : l.length ≤ limit) :
    search g limit start = some (l.find? (g.isKind · .loop)) := by
  induction hl generalizing limit with
  | gone => rw [search, List.find?_nil]
  | @stop n hn =>
    have hfind : [n].find? (g.isKind · .loop) = some n := List.find?_cons_of_pos hn
    rw [List.length_singleton] at hlimit
    rw [show limit = limit - 1 + 1 by omega, search, if_pos hn, hfind]
  | @pass n l hn _ ih =>
    have hfind : (n :: l).find? (g.isKind · .loop) = l.find? (g.isKind · .loop) :=
      List.find?_cons_of_neg hn
    rw [List.length_cons] at hlimit
    rw [show limit = limit - 1 + 1 by omega, search, if_neg hn, hfind, ih (by omega)]

theorem enclosingLoop_eq (hg : g.Sound) (n : Nat) :
    enclosingLoop g n = some (g.enclosingLoop? n) := by
  obtain ⟨l, hl, _, hlength, hfind⟩ := hg.ascends n
  rw [enclosingLoop, search_eq ((hl l).mpr rfl) hlength, hfind]

theorem perInvocation_eq (raw parent : Count) :
    perInvocation raw parent = some (Estimator.perInvocation raw parent) := by
  rw [perInvocation, Estimator.perInvocation]
  by_cases hlt : raw < parent
  · rw [if_pos hlt, if_pos hlt]
  · rw [if_neg hlt, if_neg hlt]
    by_cases hzero : raw = 0 ∨ parent = 0
    · rw [if_pos hzero, if_pos hzero]
    · rw [if_neg hzero, if_neg hzero, divide, if_neg (not_or.mp hzero).2]

theorem effective_eq (hg : g.Sound) (e : Estimator) (n : Nat) :
    effective e g n = some (e.effective g n) := by
  rw [effective, Estimator.effective]
  cases e.memo[n]? with
  | some known => rfl
  | none => rw [enclosingLoop_eq hg, Option.bind_some, perInvocation_eq, Option.map_some]; rfl

/-! ## Workloads -/

def units (g : Graph) (ix : SubtreeIndex) (root : Nat) : Option (List Node) :=
  (subtreeOfKind ix g root .unit).map (List.filterMap g.node?)

def totalInstructions (g : Graph) (ix : SubtreeIndex) (root : Nat) : Option Count :=
  (units g ix root).map fun units => Count.sum (units.map Node.instructions)

def ofLoop (m : Markers) (g : Graph) (ix : SubtreeIndex) (iterations : Count) (loop : Nat) :
    Option Count :=
  (units g ix loop).map fun units => Count.sum (units.map (m.weighted iterations))

abbrev Estimate := Estimator → Option (Except GraphError Count × Estimator)

def addAll (estimate : Nat → Estimate) : Count → List Nat → Estimate
  | total, [], e => some (.ok total, e)
  | total, n :: ns, e =>
    match estimate n e with
    | some (.ok count, e) => addAll estimate (Count.add total count) ns e
    | some (.error err, e) => some (.error err, e)
    | none => none

def within (m : Markers) (g : Graph) (ix : SubtreeIndex) : (depth : Nat) → Nat → Estimate
  | depth, n, e =>
    match g.require n with
    | .error err => some (.error err, e)
    | .ok node =>
      match node.payload, depth with
      | .unit instructions _, _ => some (.ok instructions, e)
      | .loop .., _ =>
        (effective e g n).bind fun found =>
          (ofLoop m g ix found.1 n).map fun count => (.ok count, found.2)
      | .function _, depth + 1 => addAll (within m g ix depth) 0 (g.children n) e
      | .function _, 0 => none
      | .dummy, _ => some (.ok 0, e)

def workload (m : Markers) (g : Graph) (ix : SubtreeIndex) (n : Nat) : Estimate :=
  within m g ix g.nodes.size n

/-- The checked estimate is a count, and the same as without the checks. -/
def Counts (checked : Option (Except GraphError Count × Estimator))
    (found : Except GraphError Count × Estimator) : Prop :=
  checked = some found ∧ ∃ count, found.1 = .ok count

theorem units_eq (hix : ix.InRange) (g : Graph) (root : Nat) :
    units g ix root = some (Workload.units g ix root) := by
  rw [units, subtreeOfKind_eq hix, Option.map_some, Workload.units]

theorem totalInstructions_eq (hix : ix.InRange) (g : Graph) (root : Nat) :
    totalInstructions g ix root = some (Workload.totalInstructions g ix root) := by
  rw [totalInstructions, units_eq hix, Option.map_some, Workload.totalInstructions]

theorem ofLoop_eq (hix : ix.InRange) (m : Markers) (g : Graph) (iterations : Count) (loop : Nat) :
    ofLoop m g ix iterations loop = some (Workload.ofLoop m g ix iterations loop) := by
  rw [ofLoop, units_eq hix, Option.map_some, Workload.ofLoop]

theorem counts_addAll {estimate : Nat → Estimate} {estimate' : Nat → Workload.Estimate}
    {ns : List Nat} (h : ∀ n ∈ ns, ∀ e, Counts (estimate n e) (estimate' n e)) (total : Count)
    (e : Estimator) :
    Counts (addAll estimate total ns e) (Workload.addAll estimate' total ns e) := by
  induction ns generalizing total e with
  | nil => exact ⟨rfl, total, rfl⟩
  | cons n ns ih =>
    rw [List.forall_mem_cons] at h
    obtain ⟨hchecked, count, hcount⟩ := h.1 e
    have hfound : estimate' n e = (.ok count, (estimate' n e).2) := Prod.ext hcount rfl
    rw [addAll, Workload.addAll, hchecked, hfound]
    exact ih h.2 (Count.add total count) _

/-- The index that is read may be any; what bounds the depth is the subtree in the graph's own. -/
theorem counts_within {e : Estimator} (hg : g.Sound) (hx : own.Exact g) (hix : ix.InRange)
    (hn : n < g.nodes.size) (hdepth : (own.subtree n).length ≤ depth) :
    Counts (within m g ix depth n e) (Workload.within m g ix depth n e) := by
  induction depth generalizing n e with
  | zero =>
    -- a node has a subtree, so no function is met here
    exact absurd (hx.length_subtree_pos hg hn) (Nat.not_lt.mpr hdepth)
  | succ depth ih =>
    obtain ⟨node, hnode⟩ := Graph.exists_node? hn
    unfold within
    simp only [Graph.require_of_some hnode]
    cases hp : node.payload with
    | unit instructions block =>
      rw [Workload.within_unit hnode hp]
      exact ⟨rfl, instructions, rfl⟩
    | loop doAll reduction =>
      rw [Workload.within_loop hnode hp, effective_eq hg, Option.bind_some, ofLoop_eq hix]
      exact ⟨rfl, _, rfl⟩
    | function name =>
      rw [Workload.within_function hnode hp]
      refine counts_addAll (fun child hchild e => ?_) 0 e
      have hlt := hx.length_subtree_lt hg hchild
      exact ih (hg.forest.below child n (hg.mem_children_iff.mp hchild)).1 (by omega)
    | dummy =>
      rw [Workload.within_dummy hnode hp]
      exact ⟨rfl, 0, rfl⟩

theorem counts_workload (hg : g.Sound) (hix : ix.InRange) (m : Markers) (hn : n < g.nodes.size)
    (e : Estimator) : Counts (workload m g ix n e) (Workload.estimate m g ix n e) :=
  have hx := SubtreeIndex.exact_build hg
  counts_within hg hx hix hn (hx.length_subtree_le hg n)

theorem workload_eq (hg : g.Sound) (hix : ix.InRange) (m : Markers) (n : Nat) (e : Estimator) :
    workload m g ix n e = some (Workload.estimate m g ix n e) := by
  by_cases hn : n < g.nodes.size
  · exact (counts_workload hg hix m hn e).1
  · have hnone : g.node? n = none := Graph.node?_of_ge (Nat.not_lt.mp hn)
    rw [workload, Workload.estimate, Workload.within_missing hnone]
    unfold within
    simp only [Graph.require_of_none hnone]

/-- Whatever index it is asked with, an estimate is an error only for a node that is missing. -/
theorem estimate_eq_error (hg : g.Sound) (hix : ix.InRange) (m : Markers) (n : Nat) (e : Estimator)
    (err : GraphError) :
    (Workload.estimate m g ix n e).1 = .error err ↔ g.node? n = none ∧ err = .nodeNotFound n := by
  cases hnode : g.node? n with
  | none =>
    rw [Workload.estimate, Workload.within_missing hnode, Except.error.injEq, eq_comm]
    exact (and_iff_right rfl).symm
  | some node =>
    obtain ⟨_, count, hcount⟩ := counts_workload hg hix m (Graph.lt_of_node? hnode) e
    rw [hcount]
    refine iff_of_false (fun herror => ?_) fun h => Option.some_ne_none node h.1
    cases herror

end Checked

/-- Nodes that the graph does not have add nothing to the nodes of a kind in a subtree. -/
theorem SubtreeIndex.subtreeOfKind_eq_known (ix : SubtreeIndex) (g : Graph) (root : Nat)
    (kind : NodeKind) :
    ix.subtreeOfKind g root kind =
      ((ix.subtree root).filter (· < g.nodes.size)).filter (g.isKind · kind) := by
  rw [subtreeOfKind, List.filter_filter]
  refine List.filter_congr fun n _ => ?_
  rw [Bool.eq_iff_iff, Bool.and_eq_true, decide_eq_true_iff]
  exact ⟨fun h => ⟨h, Graph.lt_of_isKind h⟩, And.left⟩

/-! ## Built graphs -/

/-- For a built graph and the index of any built graph, no access fails: every span lies within the
order of its index, the nodes that are looked at exist, also those that a refusal names, and every
question about any nodes and edges has its answer.  The workload of a node is an error only where
the graph does not have the node, and the nodes that only the index has are in no list of nodes of
a kind. -/
theorem Builder.accesses_succeed (calls calls' : List Call) :
    let b := (Builder.empty.run calls).2
    let g := b.graph
    let ix := SubtreeIndex.build (Graph.ofCalls calls')
    let c : Classifier := ⟨g, ix⟩
    (∀ (n : Nat) (span : Span), ix.spans[n]? = some span →
      span.start < span.stop ∧ span.stop ≤ ix.order.size) ∧
    (∀ root, Checked.subtree ix root = some (ix.subtree root)) ∧
    (∀ n kind, Checked.childrenOfKind g n kind = some (g.childrenOfKind n kind)) ∧
    (∀ kind, Checked.ofKind g kind = some (g.ofKind kind)) ∧
    (∀ name, Checked.findFunction g name = some (g.findFunction? name)) ∧
    (∀ p n, Checked.addChild b p n = some (b.addChild p n)) ∧
    (∀ s t d, Checked.addDependence b s t d = some (b.addDependence s t d)) ∧
    (∀ s t, Checked.hasDependency c s t = some (c.hasDependency s t)) ∧
    (∀ s t loop, Checked.hasDependencyIgnoringBenign c s t loop =
      some (c.hasDependencyIgnoringBenign s t loop)) ∧
    (∀ edge loop, Checked.isLoopIndex c edge loop = some (c.isLoopIndex edge loop)) ∧
    (∀ edge loop, Checked.isReadOnlyInLoopBody c edge loop =
      some (c.isReadOnlyInLoopBody edge loop)) ∧
    (∀ n loop, Checked.nonBenignDependencies c n loop =
      some (c.nonBenignDependencies n loop)) ∧
    (∀ root, Checked.totalInstructions g ix root = some (Workload.totalInstructions g ix root)) ∧
    (∀ e n, Checked.effective e g n = some (e.effective g n)) ∧
    (∀ m n e, Checked.workload m g ix n e = some (Workload.estimate m g ix n e)) ∧
    (∀ m n e err, (Workload.estimate m g ix n e).1 = .error err ↔
      g.node? n = none ∧ err = .nodeNotFound n) ∧
    (∀ root kind, ix.subtreeOfKind g root kind =
      ((ix.subtree root).filter (· < g.nodes.size)).filter (g.isKind · kind)) := by
  intro b g ix c
  have hb : b.Sound := sound_run calls
  have hg : g.Sound := hb.graph
  -- every access to the order is a slice by a span, and the spans are in range
  have hix : ix.InRange := (SubtreeIndex.exact_build (Graph.sound_ofCalls calls')).inRange
  exact ⟨hix, Checked.subtree_eq hix, Checked.childrenOfKind_eq hg, Checked.ofKind_eq g,
    Checked.findFunction_eq g, Checked.addChild_eq hb, Checked.addDependence_eq b,
    Checked.hasDependency_eq hix, Checked.hasDependencyIgnoringBenign_eq hix,
    Checked.isLoopIndex_eq hix, Checked.isReadOnlyInLoopBody_eq hix,
    Checked.nonBenignDependencies_eq hix, Checked.totalInstructions_eq hix g,
    Checked.effective_eq hg, Checked.workload_eq hg hix, Checked.estimate_eq_error hg hix,
    ix.subtreeOfKind_eq_known g⟩

end UnitGraph
