import UnitGraph.Proofs.Graph.Additions
import UnitGraph.Proofs.Graph.Indexing

/-!
# Containment without dependences

Both families of edges share one numbering, and a dependence that is added between two children
moves the second one to a later number.  But what is contained where, and in which order, is read
off the containment edges in their order.  Without the dependences a graph is its skeleton: calls
that add no dependence do to the skeleton what they do to the graph, and all others do nothing.
-/

namespace UnitGraph

def Graph.skeleton (g : Graph) : Graph :=
  { g with edges := g.edges.filter (·.label.isChild) }

def Builder.skeleton (b : Builder) : Builder :=
  { b with graph := b.graph.skeleton }

def Builder.Call.isDependence (c : Call) : Bool :=
  match c with
  | .dependence .. | .dependenceById .. => true
  | _ => false

/-! ## Graphs -/

namespace Graph

theorem children_skeleton (g : Graph) : g.skeleton.children = g.children := by
  funext n
  unfold children skeleton
  rw [Array.toList_filter, List.filter_filter]
  apply congrArg (List.map Edge.target)
  apply List.filter_congr
  intro e _
  rw [Bool.and_assoc, Bool.and_self]

theorem parent?_skeleton (g : Graph) : g.skeleton.parent? = g.parent? := by
  funext n
  unfold parent? skeleton
  rw [Array.toList_filter, ← List.filter_reverse, List.find?_filter]
  apply congrArg (Option.map Edge.source)
  apply congrArg (g.edges.toList.reverse.find? ·)
  funext e
  cases e.label.isChild <;> simp

theorem roots_skeleton (g : Graph) : g.skeleton.roots = g.roots := by
  unfold roots
  rw [parent?_skeleton]
  rfl

theorem enclosingLoop?_skeleton (g : Graph) : g.skeleton.enclosingLoop? = g.enclosingLoop? := by
  funext n
  unfold enclosingLoop? ancestors
  rw [parent?_skeleton]
  rfl

theorem skeleton_withEdge (g : Graph) (e : Edge) :
    (g.withEdge e).skeleton = if e.label.isChild then g.skeleton.withEdge e else g.skeleton := by
  have hedges : (g.edges.push e).filter (·.label.isChild) =
      if e.label.isChild then (g.edges.filter (·.label.isChild)).push e
      else g.edges.filter (·.label.isChild) := by
    simp only [Array.filter_push]
  change Graph.mk g.nodes ((g.edges.push e).filter (·.label.isChild)) g.ids = _
  rw [hedges]
  split <;> rfl

end Graph

/-! ## Calls -/

namespace Builder

variable {b : Builder} {c : Call}

theorem addNode_skeleton (b : Builder) (node : Node) :
    b.skeleton.addNode node = (b.addNode node).map fun (n, b) => (n, b.skeleton) := by
  rw [addNode_eq, addNode_eq]
  change (if node.id ∈ b.graph.ids then _ else _) = _
  split <;> rfl

theorem attach_skeleton (b : Builder) (p c : Nat) :
    b.skeleton.attach p c = (b.attach p c).skeleton := by
  have hgraph := b.graph.skeleton_withEdge ⟨p, c, .child⟩
  exact congrArg (Builder.mk · (b.parents.insert c p)) hgraph.symm

theorem addChild_skeleton (b : Builder) (p c : Nat) :
    b.skeleton.addChild p c = (b.addChild p c).map skeleton := by
  have hattach := b.attach_skeleton p c
  -- identifiers, recorded parents and lineages do not depend on the edges
  have hid : b.skeleton.idOf = b.idOf := rfl
  have hparents : b.skeleton.parents = b.parents := rfl
  have hlineage : b.skeleton.lineage = b.lineage := rfl
  unfold addChild
  simp only [hid, hparents, hlineage]
  cases b.idOf p with
  | error e => rfl
  | ok parentId =>
    cases b.idOf c with
    | error e => rfl
    | ok childId =>
      cases b.parents[c]? with
      | some existing => rfl
      | none =>
        by_cases hm : c ∈ b.lineage p
        · simp only [if_pos hm]
          rfl
        · simp only [if_neg hm]
          exact congrArg Except.ok hattach

theorem attempt_skeleton (b : Builder) (hc : c.isDependence = false) :
    b.skeleton.attempt c = (b.attempt c).map fun (answer, b) => (answer, b.skeleton) := by
  cases c with
  | node node =>
    rw [attempt, attempt, addNode_skeleton]
    cases b.addNode node <;> rfl
  | child p c =>
    rw [attempt, attempt, addChild_skeleton]
    cases b.addChild p c <;> rfl
  | childById parent child =>
    have hresolve : b.skeleton.resolve = b.resolve := rfl
    rw [attempt, attempt, addChildById, addChildById, hresolve]
    cases b.resolve parent with
    | error e => rfl
    | ok p =>
      cases b.resolve child with
      | error e => rfl
      | ok c =>
        change (b.skeleton.addChild p c).map _ = ((b.addChild p c).map _).map _
        rw [addChild_skeleton]
        cases b.addChild p c <;> rfl
  | resolve id =>
    change (b.resolve id).map _ = ((b.resolve id).map _).map _
    cases b.resolve id <;> rfl
  | dependence => cases hc
  | dependenceById => cases hc

/-- A call that adds no dependence gives the same answer on the skeleton and does the same to it. -/
theorem call_skeleton (b : Builder) (hc : c.isDependence = false) :
    b.skeleton.call c = ((b.call c).1, (b.call c).2.skeleton) := by
  rw [call_eq, call_eq, attempt_skeleton b hc]
  cases b.attempt c <;> rfl

theorem pushDependence_skeleton (b : Builder) (s t : Nat) (d : Dependence) :
    (b.pushEdge ⟨s, t, .dependence d⟩).skeleton = b.skeleton :=
  congrArg (Builder.mk · b.parents) (b.graph.skeleton_withEdge ⟨s, t, .dependence d⟩)

/-- A call that asks for a dependence, granted or not, does nothing to the skeleton. -/
theorem Sound.skeleton_call (hb : b.Sound) (hc : c.isDependence) :
    (b.call c).2.skeleton = b.skeleton := by
  cases h : b.attempt c with
  | error e => rw [call_eq_of_error h]
  | ok r =>
    have hgrants : b.Grants c r.1 r.2 := hb.grants_of_attempt h
    rw [call_eq, h]
    change r.2.skeleton = b.skeleton
    generalize r.1 = answer at hgrants
    generalize r.2 = b' at hgrants ⊢
    cases hgrants with
    | dependence s t d => exact b.pushDependence_skeleton s t d
    | @dependenceById _ _ s t d => exact b.pushDependence_skeleton s t d
    | node => cases hc
    | child => cases hc
    | childById => cases hc
    | resolve => cases hc

/-- The calls that add no dependence build the skeleton of what all of them build. -/
theorem Sound.run_skeleton (hb : b.Sound) (cs : List Call) :
    (b.skeleton.run (cs.filter (!·.isDependence))).2 = (b.run cs).2.skeleton := by
  induction cs generalizing b with
  | nil => rfl
  | cons c cs ih =>
    rw [run_cons, ← ih (hb.call c), List.filter_cons]
    cases hc : c.isDependence with
    | true => rw [hb.skeleton_call hc]; rfl
    | false =>
      change (b.skeleton.run (c :: cs.filter (!·.isDependence))).2 = _
      rw [run_cons, call_skeleton b hc]

end Builder

theorem Graph.ofCalls_skeleton (calls : List Builder.Call) :
    ofCalls (calls.filter (!·.isDependence)) = (ofCalls calls).skeleton :=
  congrArg Builder.graph (Builder.sound_empty.run_skeleton calls)

/-! ## Indexes -/

namespace SubtreeIndex

variable {g : Graph} {ix ix' : SubtreeIndex} {n : Nat}

/-- Where no node is met twice, a subtree stands at one place. -/
theorem StandsAt.unique {children : Nat → List Nat} {order : List Nat} {span span' : Span}
    (h : StandsAt children order n span) (h' : StandsAt children order n span')
    (hnodup : order.Nodup) : span = span' := by
  have hat := h.getElem?_start
  have hat' := h'.getElem?_start
  have hstart : span.start = span'.start :=
    (List.getElem?_inj (List.getElem?_eq_some_iff.mp hat).1 hnodup).mp (hat.trans hat'.symm)
  rcases h with ⟨before, sub, after, _, hsub, rfl⟩
  rcases h' with ⟨before', sub', after', _, hsub', rfl⟩
  change before.length = before'.length at hstart
  rw [hsub.unique hsub', hstart]

/-- A graph has one index. -/
theorem Exact.unique (hx : ix.Exact g) (hx' : ix'.Exact g) (hg : g.Sound) : ix = ix' := by
  have horder : ix.order = ix'.order := Array.toList_inj.mp (hx.order.unique hx'.order)
  have hspans : ix.spans = ix'.spans := by
    apply Std.ExtHashMap.ext_getElem?
    intro n
    by_cases hn : n < g.nodes.size
    · rcases hx.span n hn with ⟨span, hspan, hat⟩
      rcases hx'.span n hn with ⟨span', hspan', hat'⟩
      rw [← horder] at hat'
      rw [hspan, hspan', hat.unique hat' (hg.preorder_roots hx.order).1]
    · rw [hx.missing n (Nat.not_lt.mp hn), hx'.missing n (Nat.not_lt.mp hn)]
  cases ix
  cases ix'
  cases horder
  cases hspans
  rfl

/-- The index of the skeleton is that of the graph, although the walk is given fewer visits. -/
theorem build_skeleton (hg : g.Sound) (hg' : g.skeleton.Sound) : build g.skeleton = build g := by
  have hx := exact_build hg'
  have hx' : (build g.skeleton).Exact g := by
    refine ⟨?_, ?_, hx.missing⟩
    · rw [← g.children_skeleton, ← g.roots_skeleton]
      exact hx.order
    · rw [← g.children_skeleton]
      exact hx.span
  exact hx'.unique (exact_build hg) hg

end SubtreeIndex

end UnitGraph
