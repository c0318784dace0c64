import UnitGraph.Graph.Builder
import UnitGraph.Proofs.Graph.Containment

/-!
# What a call on a builder does

A call is refused and changes nothing, or it adds a node with a new identifier, hangs a root below
a node that it does not contain, or connects two units.  `Builder.Step` lists these changes with
what each one has checked.
-/

namespace UnitGraph

theorem bind_eq_ok {ε α β : Type} {x : Except ε α} {f : α → Except ε β} {r : β} :
    (x >>= f) = .ok r ↔ ∃ a, x = .ok a ∧ f a = .ok r := by
  cases x with
  | error e => simp only [bind, Except.bind, reduceCtorEq, false_and, exists_false]
  | ok a => simp only [bind, Except.bind, Except.ok.injEq, exists_eq_left']

theorem map_eq_ok {ε α β : Type} {x : Except ε α} {f : α → β} {r : β} :
    x.map f = .ok r ↔ ∃ a, x = .ok a ∧ f a = r := by
  cases x with
  | error e => simp only [Except.map, reduceCtorEq, false_and, exists_false]
  | ok a => simp only [Except.map, Except.ok.injEq, exists_eq_left']

def Graph.withNode (g : Graph) (node : Node) : Graph :=
  { g with nodes := g.nodes.push node, ids := g.ids.insert node.id g.nodes.size }

def Graph.withEdge (g : Graph) (e : Edge) : Graph :=
  { g with edges := g.edges.push e }

namespace Builder

def grow (b : Builder) (node : Node) : Builder :=
  { b with graph := b.graph.withNode node }

def attach (b : Builder) (parent child : Nat) : Builder :=
  { b.pushEdge ⟨parent, child, .child⟩ with parents := b.parents.insert child parent }

inductive Step (b : Builder) : Builder → Prop
  | node (node : Node) (fresh : node.id ∉ b.graph.ids) : Step b (b.grow node)
  | child (p c : Nat) (hp : p < b.graph.nodes.size) (hc : c < b.graph.nodes.size)
      (root : b.parents[c]? = none) (apart : c ∉ b.lineage p) : Step b (b.attach p c)
  | dependence (s t : Nat) (d : Dependence) (hs : b.graph.isKind s .unit)
      (ht : b.graph.isKind t .unit) : Step b (b.pushEdge ⟨s, t, .dependence d⟩)

variable {b b' : Builder}

theorem addNode_eq (b : Builder) (node : Node) :
    b.addNode node = if node.id ∈ b.graph.ids then .error (.duplicateNode node.id)
      else .ok (b.graph.nodes.size, b.grow node) := rfl

theorem require_ok {g : Graph} {n : Nat} {node : Node} (h : g.require n = .ok node) :
    g.node? n = some node := by
  unfold Graph.require at h
  cases hn : g.node? n with
  | none =>
    rw [hn] at h
    cases h
  | some found =>
    rw [hn] at h
    cases h
    rfl

theorem idOf_ok {n : Nat} {id : String} (h : b.idOf n = .ok id) : n < b.graph.nodes.size := by
  rcases map_eq_ok.mp h with ⟨node, hn, _⟩
  exact Graph.lt_of_node? (require_ok hn)

theorem addChild_ok {p c : Nat} (h : b.addChild p c = .ok b') :
    p < b.graph.nodes.size ∧ c < b.graph.nodes.size ∧ b.parents[c]? = none ∧ c ∉ b.lineage p ∧
      b' = b.attach p c := by
  unfold addChild at h
  rcases bind_eq_ok.mp h with ⟨parentId, hp, h⟩
  rcases bind_eq_ok.mp h with ⟨childId, hc, h⟩
  -- only the call that passes every check ends in `.ok`
  cases hr : b.parents[c]? with
  | some existing =>
    rw [hr] at h
    cases h
  | none =>
    rw [hr] at h
    by_cases hm : c ∈ b.lineage p
    · simp only [if_pos hm] at h
      cases h
    · simp only [if_neg hm] at h
      cases h
      exact ⟨idOf_ok hp, idOf_ok hc, rfl, hm, rfl⟩

theorem requireUnit_ok {s t : String} {endpoint : Node} (h : requireUnit s t endpoint = .ok ()) :
    endpoint.kind = .unit := by
  by_cases hk : endpoint.kind = .unit
  · exact hk
  · rw [requireUnit, if_neg hk] at h
    cases h

theorem addDependence_ok {s t : Nat} {d : Dependence} (h : b.addDependence s t d = .ok b') :
    b.graph.isKind s .unit ∧ b.graph.isKind t .unit ∧ b' = b.pushEdge ⟨s, t, .dependence d⟩ := by
  unfold addDependence at h
  rcases bind_eq_ok.mp h with ⟨source, hs, h⟩
  rcases bind_eq_ok.mp h with ⟨target, ht, h⟩
  rcases bind_eq_ok.mp h with ⟨_, hsk, h⟩
  rcases bind_eq_ok.mp h with ⟨_, htk, h⟩
  cases h
  exact ⟨Graph.isKind_iff.mpr ⟨source, require_ok hs, requireUnit_ok hsk⟩,
    Graph.isKind_iff.mpr ⟨target, require_ok ht, requireUnit_ok htk⟩, rfl⟩

/-- The change that a call asks for, before a refusal is turned into an answer. -/
def attempt (b : Builder) : Call → Except GraphError (Option Nat × Builder)
  | .node node => (b.addNode node).map fun (n, b) => (some n, b)
  | .child p c => (b.addChild p c).map (none, ·)
  | .dependence s t d => (b.addDependence s t d).map (none, ·)
  | .childById p c => (b.addChildById p c).map (none, ·)
  | .dependenceById s t d => (b.addDependenceById s t d).map (none, ·)
  | .resolve id => (b.resolve id).map (some ·, b)

theorem call_eq (b : Builder) (c : Call) :
    b.call c = match b.attempt c with
      | .ok (answer, b') => (.ok answer, b')
      | .error e => (.error e, b) := by
  cases c <;> rfl

/-- A call that succeeds leaves the builder as it is, or makes one step. -/
theorem attempt_ok {c : Call} {answer : Option Nat} (h : b.attempt c = .ok (answer, b')) :
    b' = b ∨ Step b b' := by
  have hchild : ∀ {p c}, b.addChild p c = .ok b' → Step b b' := by
    intro p c h
    rcases addChild_ok h with ⟨hp, hc, hr, hm, rfl⟩
    exact .child p c hp hc hr hm
  have hdependence : ∀ {s t d}, b.addDependence s t d = .ok b' → Step b b' := by
    intro s t d h
    rcases addDependence_ok h with ⟨hs, ht, rfl⟩
    exact .dependence s t d hs ht
  cases c with
  | node node =>
    by_cases hm : node.id ∈ b.graph.ids
    · rw [attempt, addNode_eq, if_pos hm] at h
      cases h
    · rw [attempt, addNode_eq, if_neg hm] at h
      cases h
      exact Or.inr (.node node hm)
  | child p c =>
    rcases map_eq_ok.mp h with ⟨_, hb, he⟩
    cases he
    exact Or.inr (hchild hb)
  | dependence s t d =>
    rcases map_eq_ok.mp h with ⟨_, hb, he⟩
    cases he
    exact Or.inr (hdependence hb)
  | childById p c =>
    -- once both identifiers are resolved it is the call between numbers
    rcases map_eq_ok.mp h with ⟨_, hb, he⟩
    rcases bind_eq_ok.mp hb with ⟨_, _, hb⟩
    rcases bind_eq_ok.mp hb with ⟨_, _, hb⟩
    cases he
    exact Or.inr (hchild hb)
  | dependenceById s t d =>
    rcases map_eq_ok.mp h with ⟨_, hb, he⟩
    rcases bind_eq_ok.mp hb with ⟨_, _, hb⟩
    rcases bind_eq_ok.mp hb with ⟨_, _, hb⟩
    cases he
    exact Or.inr (hdependence hb)
  | resolve id =>
    rcases map_eq_ok.mp h with ⟨_, _, he⟩
    cases he
    exact Or.inl rfl

theorem call_snd (b : Builder) (c : Call) : (b.call c).2 = b ∨ Step b (b.call c).2 := by
  rw [call_eq]
  cases h : b.attempt c with
  | error e => exact Or.inl rfl
  | ok r => exact attempt_ok h

end Builder

end UnitGraph
