import UnitGraph.Proofs.Graph.Loading

/-!
# Which calls are refused

A call has several ways to fail and names one of them, the first that applies.  `Graph.Refuses`
lists them in that order, in terms of nodes, parents and climbs; a call for which none of them holds
is granted.  A refused call leaves no trace, so it may as well be taken out of the run.
-/

namespace UnitGraph

theorem bind_eq_error {ε α β : Type} {x : Except ε α} {f : α → Except ε β} {e : ε} :
    (x >>= f) = .error e ↔ x = .error e ∨ ∃ a, x = .ok a ∧ f a = .error e := by
  cases x with
  | error e' => simp only [bind, Except.bind, Except.error.injEq, reduceCtorEq, false_and,
      exists_false, or_false]
  | ok a => simp only [bind, Except.bind, reduceCtorEq, Except.ok.injEq, exists_eq_left', false_or]

theorem map_eq_error {ε α β : Type} {x : Except ε α} {f : α → β} {e : ε} :
    x.map f = .error e ↔ x = .error e := by
  cases x with
  | error e' => simp only [Except.map, Except.error.injEq]
  | ok a => simp only [Except.map, reduceCtorEq]

namespace Graph

def Names (g : Graph) (id : String) (n : Nat) : Prop :=
  ∃ node, g.node? n = some node ∧ node.id = id

/-- Why a call is refused.  Each reason takes for granted that the earlier ones do not hold. -/
inductive Refuses (g : Graph) : Builder.Call → GraphError → Prop
  | taken {node n} (h : g.Names node.id n) : Refuses g (.node node) (.duplicateNode node.id)
  | noParent {p c} (hp : g.node? p = none) : Refuses g (.child p c) (.nodeNotFound p)
  | noChild {p c parent} (hp : g.node? p = some parent) (hc : g.node? c = none) :
    Refuses g (.child p c) (.nodeNotFound c)
  | attached {p c q parent child existing} (hp : g.node? p = some parent)
    (hc : g.node? c = some child) (hq : g.parent? c = some q) (he : g.node? q = some existing) :
    Refuses g (.child p c) (.multipleParents child.id parent.id existing.id)
  | cycle {p c parent child} (hp : g.node? p = some parent) (hc : g.node? c = some child)
    (hroot : g.parent? c = none) (hcycle : Climbs g.parent? p c) :
    Refuses g (.child p c) (.containmentCycle parent.id child.id)
  | noSource {s t d} (hs : g.node? s = none) : Refuses g (.dependence s t d) (.nodeNotFound s)
  | noTarget {s t d source} (hs : g.node? s = some source) (ht : g.node? t = none) :
    Refuses g (.dependence s t d) (.nodeNotFound t)
  | sourceKind {s t d source target} (hs : g.node? s = some source) (ht : g.node? t = some target)
    (hk : source.kind ≠ .unit) : Refuses g (.dependence s t d)
      (.invalidEdge source.id target.id (.endpoint source.id source.kind))
  | targetKind {s t d source target} (hs : g.node? s = some source) (ht : g.node? t = some target)
    (hsk : source.kind = .unit) (hk : target.kind ≠ .unit) : Refuses g (.dependence s t d)
      (.invalidEdge source.id target.id (.endpoint target.id target.kind))
  | unknownParent {parent child} (hp : ∀ p, ¬g.Names parent p) :
    Refuses g (.childById parent child) (.unknownNode parent)
  | unknownChild {parent child p} (hp : g.Names parent p) (hc : ∀ c, ¬g.Names child c) :
    Refuses g (.childById parent child) (.unknownNode child)
  | childById {parent child p c e} (hp : g.Names parent p) (hc : g.Names child c)
    (h : Refuses g (.child p c) e) : Refuses g (.childById parent child) e
  | unknownSource {source target d} (hs : ∀ s, ¬g.Names source s) :
    Refuses g (.dependenceById source target d) (.unknownNode source)
  | unknownTarget {source target d s} (hs : g.Names source s) (ht : ∀ t, ¬g.Names target t) :
    Refuses g (.dependenceById source target d) (.unknownNode target)
  | dependenceById {source target d s t e} (hs : g.Names source s) (ht : g.Names target t)
    (h : Refuses g (.dependence s t d) e) : Refuses g (.dependenceById source target d) e
  | unknown {id} (h : ∀ n, ¬g.Names id n) : Refuses g (.resolve id) (.unknownNode id)

variable {g : Graph} {n : Nat} {id : String}

theorem Sound.byId?_eq_some (h : g.Sound) : g.byId? id = some n ↔ g.Names id n := h.ids id n

theorem Sound.byId?_eq_none (h : g.Sound) : g.byId? id = none ↔ ∀ n, ¬g.Names id n := by
  simp only [Option.eq_none_iff_forall_ne_some, ne_eq, h.byId?_eq_some]

theorem Sound.names_unique (h : g.Sound) {m : Nat} (hn : g.Names id n) (hm : g.Names id m) :
    n = m := by
  rw [← h.byId?_eq_some] at hn hm
  exact Option.some.inj (hn.symm.trans hm)

theorem Sound.mem_ids_iff (h : g.Sound) : id ∈ g.ids ↔ ∃ n, g.Names id n := by
  simp only [← h.byId?_eq_some]
  rw [← Std.ExtHashMap.isSome_getElem?_iff_mem, Option.isSome_iff_exists]
  rfl

theorem require_eq_error {e : GraphError} :
    g.require n = .error e ↔ g.node? n = none ∧ e = .nodeNotFound n := by
  rw [require]
  cases g.node? n with
  | none => simp [eq_comm]
  | some node => simp

/-- A child edge between two nodes is refused for a parent that is there or for a cycle. -/
theorem refuses_child_iff {p c : Nat} {parent child : Node} {e : GraphError}
    (hp : g.node? p = some parent) (hc : g.node? c = some child) : g.Refuses (.child p c) e ↔
      (∃ q existing, g.parent? c = some q ∧ g.node? q = some existing ∧
        e = .multipleParents child.id parent.id existing.id) ∨
      g.parent? c = none ∧ Climbs g.parent? p c ∧ e = .containmentCycle parent.id child.id := by
  constructor
  · intro h
    cases h with
    | noParent hnone => simp [hnone] at hp
    | noChild _ hnone => simp [hnone] at hc
    | attached hp' hc' hq he =>
      cases hp.symm.trans hp'
      cases hc.symm.trans hc'
      exact .inl ⟨_, _, hq, he, rfl⟩
    | cycle hp' hc' hroot hclimb =>
      cases hp.symm.trans hp'
      cases hc.symm.trans hc'
      exact .inr ⟨hroot, hclimb, rfl⟩
  · rintro (⟨q, existing, hq, he, rfl⟩ | ⟨hroot, hclimb, rfl⟩)
    · exact .attached hp hc hq he
    · exact .cycle hp hc hroot hclimb

/-- A dependence between two nodes is refused for an end that is not a unit, the source first. -/
theorem refuses_dependence_iff {s t : Nat} {d : Dependence} {source target : Node} {e : GraphError}
    (hs : g.node? s = some source) (ht : g.node? t = some target) :
    g.Refuses (.dependence s t d) e ↔
      source.kind ≠ .unit ∧
        e = .invalidEdge source.id target.id (.endpoint source.id source.kind) ∨
      source.kind = .unit ∧ target.kind ≠ .unit ∧
        e = .invalidEdge source.id target.id (.endpoint target.id target.kind) := by
  constructor
  · intro h
    cases h with
    | noSource hnone => simp [hnone] at hs
    | noTarget _ hnone => simp [hnone] at ht
    | sourceKind hs' ht' hk =>
      cases hs.symm.trans hs'
      cases ht.symm.trans ht'
      exact .inl ⟨hk, rfl⟩
    | targetKind hs' ht' hsk hk =>
      cases hs.symm.trans hs'
      cases ht.symm.trans ht'
      exact .inr ⟨hsk, hk, rfl⟩
  · rintro (⟨hk, rfl⟩ | ⟨hsk, hk, rfl⟩)
    · exact .sourceKind hs ht hk
    · exact .targetKind hs ht hsk hk

end Graph

namespace Builder

/-! ## One call -/

/-- What a call that is granted answers, and what it leaves. -/
inductive Grants (b : Builder) : Call → Option Nat → Builder → Prop
  | node (node) : Grants b (.node node) (some b.graph.nodes.size) (b.grow node)
  | child (p c) : Grants b (.child p c) none (b.attach p c)
  | dependence (s t d) : Grants b (.dependence s t d) none (b.pushEdge ⟨s, t, .dependence d⟩)
  | childById {parent child p c} (hp : b.graph.Names parent p) (hc : b.graph.Names child c) :
    Grants b (.childById parent child) none (b.attach p c)
  | dependenceById {source target s t} (d) (hs : b.graph.Names source s)
    (ht : b.graph.Names target t) :
    Grants b (.dependenceById source target d) none (b.pushEdge ⟨s, t, .dependence d⟩)
  | resolve {id n} (h : b.graph.Names id n) : Grants b (.resolve id) (some n) b

variable {b b' b'' : Builder} {n p c s t : Nat} {id : String} {d : Dependence} {e : GraphError}

theorem idOf_eq_ok : b.idOf n = .ok id ↔ b.graph.Names id n := by
  rw [idOf, map_eq_ok]
  constructor
  · rintro ⟨node, hn, rfl⟩
    exact ⟨node, require_ok hn, rfl⟩
  · rintro ⟨node, hn, rfl⟩
    exact ⟨node, Graph.require_of_some hn, rfl⟩

theorem idOf_eq_error : b.idOf n = .error e ↔ b.graph.node? n = none ∧ e = .nodeNotFound n := by
  rw [idOf, map_eq_error, Graph.require_eq_error]

theorem Sound.resolve_eq_ok (hb : b.Sound) : b.resolve id = .ok n ↔ b.graph.Names id n := by
  rw [resolve_ok, hb.graph.byId?_eq_some]

theorem Sound.resolve_eq_error (hb : b.Sound) :
    b.resolve id = .error e ↔ (∀ n, ¬b.graph.Names id n) ∧ e = .unknownNode id := by
  rw [← hb.graph.byId?_eq_none, resolve]
  cases b.graph.byId? id with
  | none => simp [eq_comm]
  | some n => simp

theorem Sound.addNode_eq_error (hb : b.Sound) {node : Node} :
    b.addNode node = .error e ↔ b.graph.Refuses (.node node) e := by
  rw [addNode_eq]
  split
  · rename_i hid
    rcases hb.graph.mem_ids_iff.mp hid with ⟨n, hn⟩
    constructor
    · rintro ⟨⟩
      exact .taken hn
    · rintro ⟨⟩
      rfl
  · rename_i hid
    refine iff_of_false (by simp) ?_
    rintro ⟨h⟩
    exact hid (hb.graph.mem_ids_iff.mpr ⟨_, h⟩)

theorem Sound.mem_lineage (hb : b.Sound) (hp : p < b.graph.nodes.size) :
    c ∈ b.lineage p ↔ Climbs b.graph.parent? p c := by
  rw [hb.lineage, hb.graph.forest.mem_climb hp]

/-- Walking up from the parent meets the child exactly when the new edge would close a cycle: the
recorded parents are a forest, so the walk is never cut and never goes astray. -/
theorem Sound.addChild_eq_error (hb : b.Sound) :
    b.addChild p c = .error e ↔ b.graph.Refuses (.child p c) e := by
  constructor
  · intro h
    unfold addChild at h
    rcases bind_eq_error.mp h with h | ⟨parentId, hp, h⟩
    · -- the checks come in this order, and each reason is read off the first that fails
      obtain ⟨hp, rfl⟩ := idOf_eq_error.mp h
      exact .noParent hp
    obtain ⟨parent, hparent, rfl⟩ := idOf_eq_ok.mp hp
    rcases bind_eq_error.mp h with h | ⟨childId, hc, h⟩
    · obtain ⟨hc, rfl⟩ := idOf_eq_error.mp h
      exact .noChild hparent hc
    obtain ⟨child, hchild, rfl⟩ := idOf_eq_ok.mp hc
    cases hr : b.parents[c]? with
    | some q =>
      have hq : b.graph.parent? c = some q := by rw [← hb.parents, hr]
      obtain ⟨existing, he⟩ := Graph.exists_node? (hb.graph.forest.below c q hq).2
      simp only [hr, he, Option.elim_some] at h
      cases h
      exact .attached hparent hchild hq he
    | none =>
      have hroot : b.graph.parent? c = none := by rw [← hb.parents, hr]
      by_cases hm : c ∈ b.lineage p
      · simp only [hr, if_pos hm] at h
        cases h
        exact .cycle hparent hchild hroot ((hb.mem_lineage (Graph.lt_of_node? hparent)).mp hm)
      · simp only [hr, if_neg hm] at h
        cases h
  · intro h
    -- each reason lets the checks before it pass
    unfold addChild idOf
    cases h with
    | noParent hp => rw [Graph.require_of_none hp]; rfl
    | noChild hp hc => rw [Graph.require_of_some hp, Graph.require_of_none hc]; rfl
    | attached hp hc hq he =>
      rw [Graph.require_of_some hp, Graph.require_of_some hc, hb.parents, hq]
      simp only [Except.map, bind, Except.bind, he, Option.elim_some]
      rfl
    | cycle hp hc hroot hcycle =>
      have hm := (hb.mem_lineage (Graph.lt_of_node? hp)).mpr hcycle
      rw [Graph.require_of_some hp, Graph.require_of_some hc, hb.parents, hroot]
      simp only [Except.map, bind, Except.bind, if_pos hm]
      rfl

theorem requireUnit_eq_error {sourceId targetId : String} {endpoint : Node} :
    requireUnit sourceId targetId endpoint = .error e ↔ endpoint.kind ≠ .unit ∧
      e = .invalidEdge sourceId targetId (.endpoint endpoint.id endpoint.kind) := by
  rw [requireUnit]
  split <;> rename_i hk
  · simp [hk]
  · simp [hk, eq_comm]

theorem addDependence_eq_error :
    b.addDependence s t d = .error e ↔ b.graph.Refuses (.dependence s t d) e := by
  constructor
  · intro h
    unfold addDependence at h
    rcases bind_eq_error.mp h with h | ⟨source, hs, h⟩
    · obtain ⟨hs, rfl⟩ := Graph.require_eq_error.mp h
      exact .noSource hs
    replace hs := require_ok hs
    rcases bind_eq_error.mp h with h | ⟨target, ht, h⟩
    · obtain ⟨ht, rfl⟩ := Graph.require_eq_error.mp h
      exact .noTarget hs ht
    replace ht := require_ok ht
    -- the source is looked at before the target
    rcases bind_eq_error.mp h with h | ⟨_, hsk, h⟩
    · obtain ⟨hk, rfl⟩ := requireUnit_eq_error.mp h
      exact .sourceKind hs ht hk
    rcases bind_eq_error.mp h with h | ⟨_, _, h⟩
    · obtain ⟨hk, rfl⟩ := requireUnit_eq_error.mp h
      exact .targetKind hs ht (requireUnit_ok hsk) hk
    cases h
  · intro h
    unfold addDependence
    cases h with
    | noSource hs => rw [Graph.require_of_none hs]; rfl
    | noTarget hs ht => rw [Graph.require_of_some hs, Graph.require_of_none ht]; rfl
    | sourceKind hs ht hk =>
      rw [Graph.require_of_some hs, Graph.require_of_some ht]
      simp only [bind, Except.bind, requireUnit, if_neg hk]
    | targetKind hs ht hsk hk =>
      rw [Graph.require_of_some hs, Graph.require_of_some ht]
      simp only [bind, Except.bind, requireUnit, if_pos hsk, if_neg hk]

/-- Between identifiers a call fails on the first one that names no node, or else like the call
between the nodes that they name. -/
theorem Sound.resolve_both_eq_error {α : Type} (hb : b.Sound) {first second : String}
    {act : Nat → Nat → Except GraphError α} :
    (do act (← b.resolve first) (← b.resolve second)) = .error e ↔
      (∀ n, ¬b.graph.Names first n) ∧ e = .unknownNode first ∨
      ∃ n, b.graph.Names first n ∧ ((∀ m, ¬b.graph.Names second m) ∧ e = .unknownNode second ∨
        ∃ m, b.graph.Names second m ∧ act n m = .error e) := by
  simp only [bind_eq_error, hb.resolve_eq_error, hb.resolve_eq_ok]

theorem Sound.addChildById_eq_error (hb : b.Sound) {parent child : String} :
    b.addChildById parent child = .error e ↔ b.graph.Refuses (.childById parent child) e := by
  rw [addChildById, hb.resolve_both_eq_error]
  simp only [hb.addChild_eq_error]
  constructor
  · rintro (⟨hp, rfl⟩ | ⟨p, hp, ⟨hc, rfl⟩ | ⟨c, hc, h⟩⟩)
    · exact .unknownParent hp
    · exact .unknownChild hp hc
    · exact .childById hp hc h
  · intro h
    cases h with
    | unknownParent hp => exact .inl ⟨hp, rfl⟩
    | unknownChild hp hc => exact .inr ⟨_, hp, .inl ⟨hc, rfl⟩⟩
    | childById hp hc h => exact .inr ⟨_, hp, .inr ⟨_, hc, h⟩⟩

theorem Sound.addDependenceById_eq_error (hb : b.Sound) {source target : String} :
    b.addDependenceById source target d = .error e ↔
      b.graph.Refuses (.dependenceById source target d) e := by
  rw [addDependenceById, hb.resolve_both_eq_error]
  simp only [addDependence_eq_error]
  constructor
  · rintro (⟨hs, rfl⟩ | ⟨s, hs, ⟨ht, rfl⟩ | ⟨t, ht, h⟩⟩)
    · exact .unknownSource hs
    · exact .unknownTarget hs ht
    · exact .dependenceById hs ht h
  · intro h
    cases h with
    | unknownSource hs => exact .inl ⟨hs, rfl⟩
    | unknownTarget hs ht => exact .inr ⟨_, hs, .inl ⟨ht, rfl⟩⟩
    | dependenceById hs ht h => exact .inr ⟨_, hs, .inr ⟨_, ht, h⟩⟩

theorem Sound.attempt_eq_error (hb : b.Sound) {c : Call} :
    b.attempt c = .error e ↔ b.graph.Refuses c e := by
  cases c with
  | node node => rw [attempt, map_eq_error, hb.addNode_eq_error]
  | child p c => rw [attempt, map_eq_error, hb.addChild_eq_error]
  | dependence s t d => rw [attempt, map_eq_error, addDependence_eq_error]
  | childById parent child => rw [attempt, map_eq_error, hb.addChildById_eq_error]
  | dependenceById source target d => rw [attempt, map_eq_error, hb.addDependenceById_eq_error]
  | resolve id =>
    rw [attempt, map_eq_error, hb.resolve_eq_error]
    constructor
    · rintro ⟨h, rfl⟩
      exact .unknown h
    · intro h
      cases h with
      | unknown h => exact ⟨h, rfl⟩

theorem Sound.grants_of_attempt (hb : b.Sound) {c : Call} {answer : Option Nat}
    (h : b.attempt c = .ok (answer, b')) : b.Grants c answer b' := by
  -- an answer is a number only for a node that is added or looked up
  cases c with
  | node node =>
    rcases map_eq_ok.mp h with ⟨_, hn, he⟩
    rw [addNode_eq] at hn
    split at hn
    · cases hn
    · cases hn
      cases he
      exact .node node
  | child p c =>
    rcases map_eq_ok.mp h with ⟨_, hn, he⟩
    obtain ⟨_, _, _, _, rfl⟩ := addChild_ok hn
    cases he
    exact .child p c
  | dependence s t d =>
    rcases map_eq_ok.mp h with ⟨_, hn, he⟩
    obtain ⟨_, _, rfl⟩ := addDependence_ok hn
    cases he
    exact .dependence s t d
  | childById parent child =>
    rcases map_eq_ok.mp h with ⟨_, hn, he⟩
    obtain ⟨p, hp, hn⟩ := bind_eq_ok.mp hn
    obtain ⟨c, hc, hn⟩ := bind_eq_ok.mp hn
    obtain ⟨_, _, _, _, rfl⟩ := addChild_ok hn
    cases he
    exact .childById (hb.resolve_eq_ok.mp hp) (hb.resolve_eq_ok.mp hc)
  | dependenceById source target d =>
    rcases map_eq_ok.mp h with ⟨_, hn, he⟩
    obtain ⟨s, hs, hn⟩ := bind_eq_ok.mp hn
    obtain ⟨t, ht, hn⟩ := bind_eq_ok.mp hn
    obtain ⟨_, _, rfl⟩ := addDependence_ok hn
    cases he
    exact .dependenceById d (hb.resolve_eq_ok.mp hs) (hb.resolve_eq_ok.mp ht)
  | resolve id =>
    rcases map_eq_ok.mp h with ⟨n, hn, he⟩
    cases he
    exact .resolve (hb.resolve_eq_ok.mp hn)

theorem Sound.grants_unique (hb : b.Sound) {c : Call} {answer answer' : Option Nat}
    (h : b.Grants c answer b') (h' : b.Grants c answer' b'') : answer = answer' ∧ b' = b'' := by
  -- a call by identifiers names its nodes, and no identifier names two
  cases h with
  | node node => cases h'; exact ⟨rfl, rfl⟩
  | child p c => cases h'; exact ⟨rfl, rfl⟩
  | dependence s t d => cases h'; exact ⟨rfl, rfl⟩
  | childById hp hc =>
    cases h' with
    | childById hp' hc' =>
      rw [hb.graph.names_unique hp hp', hb.graph.names_unique hc hc']
      exact ⟨rfl, rfl⟩
  | dependenceById d hs ht =>
    cases h' with
    | dependenceById _ hs' ht' =>
      rw [hb.graph.names_unique hs hs', hb.graph.names_unique ht ht']
      exact ⟨rfl, rfl⟩
  | resolve hn =>
    cases h' with
    | resolve hn' =>
      rw [hb.graph.names_unique hn hn']
      exact ⟨rfl, rfl⟩

theorem call_eq_of_error {c : Call} (h : b.attempt c = .error e) : b.call c = (.error e, b) := by
  rw [call_eq, h]

theorem call_eq_of_ok {c : Call} {answer : Option Nat} (h : b.attempt c = .ok (answer, b')) :
    b.call c = (.ok answer, b') := by
  rw [call_eq, h]

theorem Sound.call_eq_error (hb : b.Sound) {c : Call} :
    (b.call c).1 = .error e ↔ b.graph.Refuses c e := by
  rw [← hb.attempt_eq_error]
  cases h : b.attempt c with
  | error e' => simp [call_eq_of_error h]
  | ok r => simp [call_eq_of_ok (show b.attempt c = .ok (r.1, r.2) from h)]

/-- A call is granted exactly when no reason speaks against it. -/
theorem Sound.call_eq_ok (hb : b.Sound) {c : Call} {answer : Option Nat} :
    b.call c = (.ok answer, b') ↔ (∀ e, ¬b.graph.Refuses c e) ∧ b.Grants c answer b' := by
  simp only [← hb.attempt_eq_error]
  cases h : b.attempt c with
  | error e =>
    rw [call_eq_of_error h]
    simp
  | ok r =>
    obtain ⟨found, left⟩ := r
    have hgrants := hb.grants_of_attempt h
    rw [call_eq_of_ok h]
    constructor
    · rintro ⟨⟩
      exact ⟨by simp, hgrants⟩
    · rintro ⟨_, hgrants'⟩
      obtain ⟨rfl, rfl⟩ := hb.grants_unique hgrants hgrants'
      rfl

end Builder

/-! ## Calls in place -/

/-- A change of a builder in place.  What was written before a refusal stays written. -/
abbrev Edit (α : Type) : Type := ExceptT GraphError (StateM Builder) α

namespace Edit

def check {α : Type} (look : Builder → Except GraphError α) : Edit α := do
  MonadExcept.ofExcept (look (← get))

def addNode (node : Node) : Edit Nat := do
  let b ← get
  if node.id ∈ b.graph.ids then
    throw (.duplicateNode node.id)
  let n := b.graph.nodes.size
  modify fun b => { b with graph := { b.graph with nodes := b.graph.nodes.push node } }
  modify fun b => { b with graph := { b.graph with ids := b.graph.ids.insert node.id n } }
  return n

def addChild (parent child : Nat) : Edit Unit := do
  let parentId ← check (·.idOf parent)
  let childId ← check (·.idOf child)
  let b ← get
  match b.parents[child]? with
  | some existing =>
    throw (.multipleParents childId parentId ((b.graph.node? existing).elim "" Node.id))
  | none =>
    if child ∈ b.lineage parent then
      throw (.containmentCycle parentId childId)
    modify (·.pushEdge ⟨parent, child, .child⟩)
    modify fun b => { b with parents := b.parents.insert child parent }

def addDependence (source target : Nat) (d : Dependence) : Edit Unit := do
  let s ← check (·.graph.require source)
  let t ← check (·.graph.require target)
  check fun _ => Builder.requireUnit s.id t.id s
  check fun _ => Builder.requireUnit s.id t.id t
  modify (·.pushEdge ⟨source, target, .dependence d⟩)

def call : Builder.Call → Edit (Option Nat)
  | .node node => return some (← addNode node)
  | .child parent child => do
    addChild parent child
    return none
  | .dependence source target d => do
    addDependence source target d
    return none
  | .childById parent child => do
    addChild (← check (·.resolve parent)) (← check (·.resolve child))
    return none
  | .dependenceById source target d => do
    addDependence (← check (·.resolve source)) (← check (·.resolve target)) d
    return none
  | .resolve id => return some (← check (·.resolve id))

/-- What is left of a change whose writing is all done at its end. -/
def atOnce {α : Type} (b : Builder) :
    Except GraphError (α × Builder) → Except GraphError α × Builder
  | .ok (a, b') => (.ok a, b')
  | .error e => (.error e, b)

variable {α β : Type} {b : Builder}

theorem run_get_bind (next : Builder → Edit β) :
    (get >>= next : Edit β).run.run b = (next b).run.run b := rfl

/-- Nothing is written by looking, so what comes after it is all that can be left unfinished. -/
theorem run_check_bind {look : Builder → Except GraphError α} {next : α → Edit β}
    {outcome : α → Except GraphError (β × Builder)}
    (h : ∀ a, (next a).run.run b = atOnce b (outcome a)) :
    (check look >>= next).run.run b = atOnce b (look b >>= outcome) := by
  show ((MonadExcept.ofExcept (look b) : Edit α) >>= next).run.run b = _
  cases look b with
  | error e => rfl
  | ok a => exact h a

theorem run_addNode (node : Node) : (addNode node).run.run b = atOnce b (b.addNode node) := by
  rw [addNode, Builder.addNode, run_get_bind]
  split <;> rfl

theorem except_map_bind {γ : Type} {x : Except GraphError α} {f : α → Except GraphError β}
    {g : β → γ} : (x >>= f).map g = x >>= fun a => (f a).map g := by
  cases x <;> rfl

theorem run_addChild (parent child : Nat) :
    (addChild parent child).run.run b = atOnce b ((b.addChild parent child).map ((), ·)) := by
  rw [addChild, Builder.addChild, except_map_bind]
  refine run_check_bind fun parentId => ?_
  rw [except_map_bind]
  refine run_check_bind fun childId => ?_
  rw [run_get_bind]
  cases b.parents[child]? with
  | some existing => rfl
  | none => by_cases hm : child ∈ b.lineage parent <;> simp only [hm, if_true, if_false] <;> rfl

theorem run_addDependence (source target : Nat) (d : Dependence) :
    (addDependence source target d).run.run b =
      atOnce b ((b.addDependence source target d).map ((), ·)) := by
  rw [addDependence, Builder.addDependence]
  simp only [except_map_bind]
  exact run_check_bind fun _ => run_check_bind fun _ => run_check_bind fun _ =>
    run_check_bind fun _ => rfl

theorem run_bind_of_ok {act : Edit α} {next : α → Edit β} {a : α} {b' : Builder}
    (h : act.run.run b = (.ok a, b')) : (act >>= next).run.run b = (next a).run.run b' := by
  rw [ExceptT.run_bind, StateT.run_bind, h]
  rfl

theorem run_bind_of_error {act : Edit α} {next : α → Edit β} {e : GraphError}
    (h : act.run.run b = (.error e, b)) : (act >>= next).run.run b = (.error e, b) := by
  rw [ExceptT.run_bind, StateT.run_bind, h]
  rfl

/-- What a change answers may be put in other words. -/
theorem run_answer {act : Edit α} {outcome : Except GraphError (α × Builder)}
    (h : act.run.run b = atOnce b outcome) (f : α → β) :
    (do return f (← act) : Edit β).run.run b =
      atOnce b (outcome.map fun (a, b') => (f a, b')) := by
  cases outcome with
  | error e => exact run_bind_of_error h
  | ok r => exact run_bind_of_ok h

theorem run_silently {act : Edit Unit} {outcome : Except GraphError Builder}
    (h : act.run.run b = atOnce b (outcome.map ((), ·))) :
    (do act; return none : Edit (Option Nat)).run.run b = atOnce b (outcome.map (none, ·)) := by
  have hrun := run_answer h fun _ => (none : Option Nat)
  cases outcome <;> exact hrun

theorem call_eq_atOnce (c : Builder.Call) : b.call c = atOnce b (b.attempt c) := by
  rw [Builder.call_eq]
  cases b.attempt c <;> rfl

/-- A call that writes as it goes leaves what it would leave if it wrote at its end: all of it, or
nothing. -/
theorem run_call (c : Builder.Call) : (call c).run.run b = b.call c := by
  rw [call_eq_atOnce]
  -- an update in place does its checks on the same builder before it changes anything
  cases c with
  | node node => exact run_answer (run_addNode node) some
  | child parent child => exact run_silently (run_addChild parent child)
  | dependence source target d => exact run_silently (run_addDependence source target d)
  | childById parent child =>
    simp only [call, Builder.attempt, Builder.addChildById, except_map_bind]
    exact run_check_bind fun _ => run_check_bind fun _ => run_silently (run_addChild _ _)
  | dependenceById source target d =>
    simp only [call, Builder.attempt, Builder.addDependenceById, except_map_bind]
    exact run_check_bind fun _ => run_check_bind fun _ => run_silently (run_addDependence _ _ d)
  | resolve id =>
    rw [call, Builder.attempt]
    exact run_check_bind fun n => rfl

end Edit

/-! ## Runs without the refused calls -/

namespace Builder

def granted (b : Builder) (cs : List Call) : List (Call × Answer) :=
  (cs.zip (b.run cs).1).filter fun (_, answer) => answer.isOk

variable {b b' : Builder} {c : Call} {cs : List Call}

theorem run_cons (b : Builder) (c : Call) (cs : List Call) :
    b.run (c :: cs) =
      ((b.call c).1 :: ((b.call c).2.run cs).1, ((b.call c).2.run cs).2) := rfl

theorem granted_cons_of_ok {answer : Option Nat} (h : b.call c = (.ok answer, b')) :
    b.granted (c :: cs) = (c, .ok answer) :: b'.granted cs := by
  rw [granted, run_cons, h]
  rfl

theorem granted_cons_of_error {e : GraphError} (h : b.call c = (.error e, b)) :
    b.granted (c :: cs) = b.granted cs := by
  rw [granted, run_cons, h]
  rfl

/-- The granted calls alone give the same answers and the same builder. -/
theorem run_granted (b : Builder) (cs : List Call) :
    b.run ((b.granted cs).map Prod.fst) = ((b.granted cs).map Prod.snd, (b.run cs).2) := by
  induction cs generalizing b with
  | nil => rfl
  | cons c cs ih =>
    cases h : b.attempt c with
    | error e =>
      have hcall := call_eq_of_error h
      rw [granted_cons_of_error hcall, run_cons, hcall]
      exact ih b
    | ok r =>
      have hcall : b.call c = (.ok r.1, r.2) := call_eq_of_ok h
      rw [granted_cons_of_ok hcall, List.map_cons, List.map_cons, run_cons, run_cons, hcall, ih r.2]

/-- In every state that calls reach, a call is refused for the reasons listed and for no other; one
for which there is no reason is granted.  Made in place it leaves what it leaves when it is made at
once, so a refused call leaves everything as it was, and taking all refused calls out of a run
changes neither the other answers nor the builder. -/
theorem run_decides (calls : List Call) :
    let b := (Builder.empty.run calls).2
    (∀ c e, (b.call c).1 = .error e ↔ b.graph.Refuses c e) ∧
    (∀ c answer b', b.call c = (.ok answer, b') ↔
      (∀ e, ¬b.graph.Refuses c e) ∧ b.Grants c answer b') ∧
    (∀ c, (Edit.call c).run.run b = b.call c) ∧
    (∀ c e, (b.call c).1 = .error e → (b.call c).2 = b) ∧
    ∀ cs, b.run ((b.granted cs).map Prod.fst) = ((b.granted cs).map Prod.snd, (b.run cs).2) := by
  intro b
  have hb : b.Sound := sound_run calls
  refine ⟨fun c e => hb.call_eq_error, fun c answer b' => hb.call_eq_ok, fun c => Edit.run_call c,
    fun c e h => ?_, b.run_granted⟩
  rw [hb.call_eq_error, ← hb.attempt_eq_error] at h
  rw [call_eq_of_error h]

end Builder

end UnitGraph
