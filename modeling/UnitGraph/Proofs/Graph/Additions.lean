import UnitGraph.Proofs.Graph.Refusals

/-!
# What a run adds

A call that is granted appends at most one thing: a node behind the nodes that are there, or a child
behind the children of its parent.  So after a run the nodes are those of the granted calls in their
order, and the children of a node are those that the run attached to it, one after the other.
-/

namespace UnitGraph

theorem Graph.children_withEdge (g : Graph) (e : Edge) (n : Nat) :
    (g.withEdge e).children n =
      g.children n ++ if e.source = n && e.label.isChild then [e.target] else [] := by
  unfold children withEdge
  rw [Array.toList_push, List.filter_append, List.map_append, List.filter_singleton]
  cases decide (e.source = n) && e.label.isChild <;> rfl

namespace Builder

def Call.node? (c : Call) : Option Node :=
  match c with
  | .node added => some added
  | _ => none

/-- The parent and the child that a call connects; none if it is refused or no attachment. -/
def attachment? (b : Builder) (c : Call) : Option (Nat × Nat) :=
  match c, (b.call c).1 with
  | .child p c, .ok _ => some (p, c)
  | .childById parent child, .ok _ => do
    return (← b.graph.byId? parent, ← b.graph.byId? child)
  | _, _ => none

def attachments (b : Builder) : List Call → List (Nat × Nat)
  | [] => []
  | c :: cs => (b.attachment? c).toList ++ (b.call c).2.attachments cs

variable {b b' : Builder} {c : Call} {answer : Option Nat} {n : Nat}

/-! ## Nodes -/

theorem Grants.nodes (h : b.Grants c answer b') :
    b'.graph.nodes.toList = b.graph.nodes.toList ++ c.node?.toList := by
  cases h with
  | node node => exact Array.toList_push
  | child p c => exact (List.append_nil _).symm
  | dependence s t d => exact (List.append_nil _).symm
  | childById hp hc => exact (List.append_nil _).symm
  | dependenceById d hs ht => exact (List.append_nil _).symm
  | resolve hn => exact (List.append_nil _).symm

/-- The nodes after a run are those before it, then those of the granted calls. -/
theorem Sound.nodes_run (hb : b.Sound) (cs : List Call) :
    (b.run cs).2.graph.nodes.toList =
      b.graph.nodes.toList ++ (b.granted cs).filterMap (·.1.node?) := by
  -- the builder is general, since the rest of a run starts from what the first call left
  induction cs generalizing b with
  | nil => exact (List.append_nil _).symm
  | cons c cs ih =>
    have hrest := ih (hb.call c)
    cases h : b.attempt c with
    | error e =>
      -- refused, so it adds no node and is not among the granted calls
      have hcall := call_eq_of_error h
      rw [hcall] at hrest
      rw [run_cons, hcall, granted_cons_of_error hcall]
      exact hrest
    | ok r =>
      have hcall : b.call c = (.ok r.1, r.2) := call_eq_of_ok h
      have hnodes := (hb.call_eq_ok.mp hcall).2.nodes
      rw [hcall] at hrest
      rw [run_cons, hcall, granted_cons_of_ok hcall, List.filterMap_cons]
      change (r.2.run cs).2.graph.nodes.toList = _
      rw [hrest, hnodes]
      cases c.node? with
      | none => rw [Option.toList_none, List.append_nil]
      | some node => rw [Option.toList_some, List.append_assoc, List.singleton_append]

/-- A node keeps its number and all it holds. -/
theorem Sound.node?_run (hb : b.Sound) (cs : List Call) (hn : n < b.graph.nodes.size) :
    (b.run cs).2.graph.node? n = b.graph.node? n := by
  unfold Graph.node?
  rw [← Array.getElem?_toList, ← Array.getElem?_toList, hb.nodes_run,
    List.getElem?_append_left (by rwa [Array.length_toList])]

/-! ## Children -/

theorem children_attach (b : Builder) (p c n : Nat) :
    (b.attach p c).graph.children n =
      b.graph.children n ++ (([(p, c)].filter (·.1 = n)).map Prod.snd) := by
  have h := b.graph.children_withEdge ⟨p, c, .child⟩ n
  rw [EdgeLabel.isChild, Bool.and_true] at h
  rw [List.filter_singleton]
  apply h.trans
  cases decide (p = n) <;> rfl

theorem children_pushDependence (b : Builder) (s t : Nat) (d : Dependence) (n : Nat) :
    (b.pushEdge ⟨s, t, .dependence d⟩).graph.children n = b.graph.children n := by
  have h := b.graph.children_withEdge ⟨s, t, .dependence d⟩ n
  rw [EdgeLabel.isChild, Bool.and_false, if_neg Bool.false_ne_true, List.append_nil] at h
  exact h

theorem Sound.children_call_of_ok (hb : b.Sound) (h : b.call c = (.ok answer, b')) (n : Nat) :
    b'.graph.children n =
      b.graph.children n ++ ((b.attachment? c).toList.filter (·.1 = n)).map Prod.snd := by
  unfold attachment?
  rw [h]
  cases (hb.call_eq_ok.mp h).2 with
  | node node => exact (List.append_nil _).symm
  | child p c => exact children_attach b p c n
  | dependence s t d =>
    exact (children_pushDependence b s t d n).trans (List.append_nil _).symm
  | @childById parent child p c hp hc =>
    -- the identifiers name the nodes that are looked up
    have hp' := hb.graph.byId?_eq_some.mpr hp
    have hc' := hb.graph.byId?_eq_some.mpr hc
    simp only [hp', hc']
    exact children_attach b p c n
  | @dependenceById source target s t d hs ht =>
    exact (children_pushDependence b s t d n).trans (List.append_nil _).symm
  | resolve hn => exact (List.append_nil _).symm

theorem attachment?_of_error {e : GraphError} (h : b.call c = (.error e, b)) :
    b.attachment? c = none := by
  unfold attachment?
  rw [h]
  cases c <;> rfl

/-- The children of a node after a run are those before it, then those that the run attached, in
the order in which it did. -/
theorem Sound.children_run (hb : b.Sound) (cs : List Call) (n : Nat) :
    (b.run cs).2.graph.children n =
      b.graph.children n ++ ((b.attachments cs).filter (·.1 = n)).map Prod.snd := by
  induction cs generalizing b with
  | nil => exact (List.append_nil _).symm
  | cons c cs ih =>
    have hrest := ih (hb.call c)
    -- the children after the first call stand between the two sides
    rw [run_cons, attachments, List.filter_append, List.map_append, ← List.append_assoc]
    apply hrest.trans
    apply congrArg (· ++ _)
    cases h : b.attempt c with
    | error e =>
      have hcall := call_eq_of_error h
      rw [attachment?_of_error hcall, hcall]
      exact (List.append_nil _).symm
    | ok r =>
      have hcall : b.call c = (.ok r.1, r.2) := call_eq_of_ok h
      rw [hcall]
      exact hb.children_call_of_ok hcall n

end Builder

end UnitGraph
