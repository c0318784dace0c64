import UnitGraph.Graph.SubtreeIndex
import UnitGraph.Proofs.Graph.Building
import UnitGraph.Proofs.Graph.Preorder

/-!
# The subtree index is the depth-first order

The walk with pending visits appends to an index the depth-first order of the nodes it is to enter,
and leaves every span it has opened closed around the subtree of its node.  Walked over all roots,
the index holds the order of the whole forest, and its interval test is membership in a subtree.
-/

namespace UnitGraph

namespace SubtreeIndex

def StandsAt (children : Nat → List Nat) (order : List Nat) (m : Nat) (span : Span) : Prop :=
  ∃ before sub after, order = before ++ sub ++ after ∧ Preorder children [m] sub ∧
    span = ⟨before.length, before.length + sub.length⟩

/-- The later index has the nodes `l` more, each with its span, and all else as it was. -/
structure Extends (g : Graph) (ix : SubtreeIndex) (l : List Nat) (ix' : SubtreeIndex) : Prop where
  order : ix'.order.toList = ix.order.toList ++ l
  other : ∀ m, m ∉ l → ix'.spans[m]? = ix.spans[m]?
  span : ∀ m ∈ l, ∃ span, ix'.spans[m]? = some span ∧
    StandsAt g.children ix'.order.toList m span

variable {g : Graph} {ix ix' ix'' : SubtreeIndex} {l k below ns : List Nat} {n m r : Nat}

theorem StandsAt.append {children : Nat → List Nat} {order : List Nat} {span : Span}
    (h : StandsAt children order m span) (more : List Nat) :
    StandsAt children (order ++ more) m span := by
  rcases h with ⟨before, sub, after, rfl, hsub, rfl⟩
  exact ⟨before, sub, after ++ more, List.append_assoc _ after more, hsub, rfl⟩

theorem StandsAt.getElem?_start {children : Nat → List Nat} {order : List Nat} {span : Span}
    (h : StandsAt children order m span) : order[span.start]? = some m := by
  rcases h with ⟨before, sub, after, rfl, hsub, rfl⟩
  rcases hsub.exists_of_single with ⟨below, _, rfl⟩
  rw [List.append_assoc, List.getElem?_append_right (Nat.le_refl _), Nat.sub_self]
  rfl

theorem Extends.refl (ix : SubtreeIndex) : Extends g ix [] ix :=
  ⟨(List.append_nil _).symm, fun _ _ => rfl, fun _ hm => absurd hm List.not_mem_nil⟩

theorem Extends.trans (h : Extends g ix l ix') (h' : Extends g ix' k ix'') :
    Extends g ix (l ++ k) ix'' where
  order := by rw [h'.order, h.order, List.append_assoc]
  other m hm := by
    rw [List.mem_append, not_or] at hm
    rw [h'.other m hm.2, h.other m hm.1]
  span m hm := by
    by_cases hk : m ∈ k
    · exact h'.span m hk
    · have hl : m ∈ l := (List.mem_append.mp hm).resolve_right hk
      rcases h.span m hl with ⟨span, hspan, hat⟩
      exact ⟨span, by rw [h'.other m hk, hspan], by rw [h'.order]; exact hat.append k⟩

/-! ## Visits -/

def opened (ix : SubtreeIndex) (n : Nat) : SubtreeIndex :=
  ⟨ix.order.push n, ix.spans.insert n ⟨ix.order.size, ix.order.size + 1⟩⟩

def closed (ix : SubtreeIndex) (n start : Nat) : SubtreeIndex :=
  { ix with spans := ix.spans.insert n ⟨start, ix.order.size⟩ }

theorem visit_enter (h : n ∉ ix.spans) :
    ix.visit g (.enter n) = (ix.opened n, (g.children n).map .enter ++ [.leave n]) := by
  rw [visit, if_neg h]
  rfl

theorem visit_leave {span : Span} (h : ix.spans[n]? = some span) :
    ix.visit g (.leave n) = (ix.closed n span.start, []) := by
  rw [visit, h]
  rfl

theorem walk_cons (limit : Nat) (v : Visit) (pending : List Visit) (ix : SubtreeIndex) :
    walk g (limit + 1) (v :: pending) ix =
      walk g limit ((ix.visit g v).2 ++ pending) (ix.visit g v).1 := rfl

theorem walk_nil (limit : Nat) (ix : SubtreeIndex) : walk g limit [] ix = ix := by
  cases limit <;> rfl

theorem getElem?_empty (n : Nat) : SubtreeIndex.empty.spans[n]? = none :=
  Std.ExtHashMap.getElem?_empty

theorem getElem?_opened (ix : SubtreeIndex) (n m : Nat) :
    (ix.opened n).spans[m]? =
      if n = m then some ⟨ix.order.size, ix.order.size + 1⟩ else ix.spans[m]? := by
  rw [opened, Std.ExtHashMap.getElem?_insert]
  simp only [beq_iff_eq]

theorem getElem?_closed (ix : SubtreeIndex) (n start m : Nat) :
    (ix.closed n start).spans[m]? =
      if n = m then some ⟨start, ix.order.size⟩ else ix.spans[m]? := by
  rw [closed, Std.ExtHashMap.getElem?_insert]
  simp only [beq_iff_eq]

theorem Extends.close (hb : Preorder g.children (g.children n) below)
    (h : Extends g (ix.opened n) below ix') :
    Extends g ix (n :: below) (ix'.closed n ix.order.size) := by
  have horder : (ix'.closed n ix.order.size).order.toList = ix.order.toList ++ n :: below := by
    rw [closed, h.order, opened, Array.toList_push, List.append_assoc, List.singleton_append]
  refine ⟨horder, fun m hm => ?_, fun m hm => ?_⟩
  · -- meeting and leaving `n` writes no span but its own
    rw [List.mem_cons, not_or] at hm
    rw [getElem?_closed, if_neg (Ne.symm hm.1), h.other m hm.2, getElem?_opened,
      if_neg (Ne.symm hm.1)]
  · by_cases hnm : n = m
    · -- the span of `n` ends at the size that the order has when `n` is left
      refine ⟨_, by rw [getElem?_closed, if_pos hnm], ?_⟩
      rw [horder, ← hnm]
      refine ⟨ix.order.toList, n :: below, [], by rw [List.append_nil], hb.single, ?_⟩
      have hsize : ix'.order.size = ix.order.size + (n :: below).length := by
        rw [← Array.length_toList, h.order, List.length_append, Array.length_toList, opened,
          Array.size_push, List.length_cons]
        omega
      rw [hsize]
      rfl
    · rcases List.mem_cons.mp hm with hm | hm
      · exact absurd hm.symm hnm
      · rcases h.span m hm with ⟨span, hspan, hat⟩
        exact ⟨span, by rw [getElem?_closed, if_neg hnm, hspan], hat⟩

/-! ## The walk -/

/-- What is entered is new, and what is left has been entered. -/
def Due (ix : SubtreeIndex) : Visit → Prop
  | .enter n => n ∉ ix.spans
  | .leave n => n ∈ ix.spans

/-- The visits done one after the other, as long as any is pending, and each of them due. -/
inductive Visits (g : Graph) :
    List Visit → SubtreeIndex → (tour : List Visit) → SubtreeIndex → Prop
  | nil {ix : SubtreeIndex} : Visits g [] ix [] ix
  | cons {v : Visit} {pending tour : List Visit} {ix ix' : SubtreeIndex} :
      ix.Due v → Visits g ((ix.visit g v).2 ++ pending) (ix.visit g v).1 tour ix' →
      Visits g (v :: pending) ix (v :: tour) ix'

inductive Sweeps (g : Graph) :
    List Nat → SubtreeIndex → (tours : List (List Visit)) → SubtreeIndex → Prop
  | nil {ix : SubtreeIndex} : Sweeps g [] ix [] ix
  | cons {r : Nat} {rs : List Nat} {tour : List Visit} {tours : List (List Visit)}
      {ix ix' ix'' : SubtreeIndex} :
      Visits g [.enter r] ix tour ix' → Sweeps g rs ix' tours ix'' →
      Sweeps g (r :: rs) ix (tour :: tours) ix''

/-- The nodes of the list are entered once each and left once each, in some order. -/
def Tours (tour : List Visit) (l : List Nat) : Prop :=
  tour.Perm (l.map .enter ++ l.map .leave)

variable {v : Visit} {pending tour tour' : List Visit}

theorem due_enter (h : ix.spans[n]? = none) : ix.Due (.enter n) := by
  rw [Due, Std.ExtHashMap.mem_iff_isSome_getElem?, h]
  exact Bool.false_ne_true

theorem due_leave {span : Span} (h : ix.spans[n]? = some span) : ix.Due (.leave n) := by
  rw [Due, Std.ExtHashMap.mem_iff_isSome_getElem?, h]
  rfl

/-- A walk that may do as many visits as are done is not cut. -/
theorem Visits.walk_eq (h : Visits g pending ix tour ix') {limit : Nat}
    (hlimit : tour.length ≤ limit) : walk g limit pending ix = ix' := by
  induction h generalizing limit with
  | nil => exact walk_nil limit _
  | cons _ _ ih =>
    rw [List.length_cons] at hlimit
    rw [show limit = limit - 1 + 1 by omega, walk_cons]
    exact ih (by omega)

theorem Tours.length (h : Tours tour l) : tour.length = 2 * l.length := by
  rw [List.Perm.length_eq h, List.length_append, List.length_map, List.length_map, Nat.two_mul]

theorem Tours.of_perm (h : Tours tour l) (hlk : l.Perm k) : Tours tour k :=
  List.Perm.trans h ((hlk.map _).append (hlk.map _))

theorem Tours.append (h : Tours tour l) (h' : Tours tour' k) : Tours (tour ++ tour') (l ++ k) := by
  refine List.perm_iff_count.mpr fun v => ?_
  have hl := h.count_eq v
  have hk := h'.count_eq v
  simp only [List.count_append, List.map_append] at hl hk ⊢
  omega

theorem Tours.around (h : Tours tour below) (n : Nat) :
    Tours (.enter n :: (tour ++ [.leave n])) (n :: below) := by
  refine List.perm_iff_count.mpr fun v => ?_
  have hb := h.count_eq v
  simp only [List.map_cons, List.count_append, List.count_cons, List.count_nil] at hb ⊢
  omega

/-- The tour does away with the visits, whatever is pending behind them. -/
def Clears (g : Graph) (visits : List Visit) (ix : SubtreeIndex) (tour : List Visit)
    (ix' : SubtreeIndex) : Prop :=
  ∀ pending later ix'', Visits g pending ix' later ix'' →
    Visits g (visits ++ pending) ix (tour ++ later) ix''

theorem Clears.nil : Clears g [] ix [] ix := fun _ _ _ h => h

theorem Clears.append {visits visits' : List Visit} (h : Clears g visits ix tour ix')
    (h' : Clears g visits' ix' tour' ix'') :
    Clears g (visits ++ visits') ix (tour ++ tour') ix'' := by
  intro pending later last hlater
  rw [List.append_assoc, List.append_assoc]
  exact h _ _ _ (h' _ _ _ hlater)

theorem Clears.visit (hdue : ix.Due v) (h : Clears g (ix.visit g v).2 (ix.visit g v).1 tour ix') :
    Clears g [v] ix (v :: tour) ix' := fun pending later last hlater =>
  .cons hdue (h pending later last hlater)

theorem Clears.visits {visits : List Visit} (h : Clears g visits ix tour ix') :
    Visits g visits ix tour ix' := by
  have hv := h [] [] ix' .nil
  rwa [List.append_nil, List.append_nil] at hv

/-- A node is entered, then the nodes below it are done with, then it is left. -/
theorem Clears.around {span : Span} (hn : ix.spans[n]? = none)
    (h : Clears g ((g.children n).map .enter) (ix.opened n) tour ix')
    (hspan : ix'.spans[n]? = some span) :
    Clears g [.enter n] ix (.enter n :: (tour ++ [.leave n])) (ix'.closed n span.start) := by
  have hleave : Clears g [.leave n] ix' [.leave n] (ix'.closed n span.start) := by
    refine .visit (due_leave hspan) ?_
    rw [visit_leave hspan]
    exact .nil
  refine .visit (due_enter hn) ?_
  rw [visit_enter (due_enter hn)]
  exact h.append hleave

/-- Entering nodes that are new does the visits for every node below them, and adds their order. -/
theorem exists_clears (h : Preorder g.children ns l) (hl : l.Nodup)
    (fresh : ∀ m ∈ l, ix.spans[m]? = none) :
    ∃ ix' tour, Extends g ix l ix' ∧ Tours tour l ∧ Clears g (ns.map .enter) ix tour ix' := by
  induction h generalizing ix with
  | nil => exact ⟨ix, [], .refl ix, .refl _, .nil⟩
  | @cons n ns below rest hb hr ihb ihr =>
    rw [List.nodup_cons, List.nodup_append, List.mem_append, not_or] at hl
    rcases hl with ⟨⟨hnb, hnr⟩, hbelow, hrest, hapart⟩
    -- below the node, in the index with its span opened
    have hfreshb : ∀ m ∈ below, (ix.opened n).spans[m]? = none := by
      intro m hm
      rw [getElem?_opened, if_neg (fun he : n = m => hnb (he ▸ hm))]
      exact fresh m (List.mem_cons_of_mem n (List.mem_append_left rest hm))
    rcases ihb hbelow hfreshb with ⟨ix₁, tour₁, hx₁, ht₁, hc₁⟩
    have hspan : ix₁.spans[n]? = some ⟨ix.order.size, ix.order.size + 1⟩ := by
      rw [hx₁.other n hnb, getElem?_opened, if_pos rfl]
    have hx₂ : Extends g ix (n :: below) (ix₁.closed n ix.order.size) := hx₁.close hb
    -- the later trees, in the index with the span closed
    have hnot : ∀ m ∈ n :: below, m ∉ rest := by
      intro m hm hmr
      rcases List.mem_cons.mp hm with rfl | hm
      · exact hnr hmr
      · exact hapart m hm m hmr rfl
    have hfreshr : ∀ m ∈ rest, (ix₁.closed n ix.order.size).spans[m]? = none := by
      intro m hm
      rw [hx₂.other m (fun hm' => hnot m hm' hm)]
      exact fresh m (List.mem_cons_of_mem n (List.mem_append_right below hm))
    rcases ihr hrest hfreshr with ⟨ix₃, tour₃, hx₃, ht₃, hc₃⟩
    rw [List.map_cons, ← List.singleton_append]
    exact ⟨ix₃, _, hx₂.trans hx₃, (ht₁.around n).append ht₃,
      (hc₁.around (fresh n List.mem_cons_self) hspan).append hc₃⟩

/-- The walk below a root is not cut: every node there has an edge of its own, so the visits do not
run out. -/
theorem visits_root (hg : g.Sound) (hn : n < g.nodes.size) (h : Preorder g.children [n] l)
    (fresh : ∀ m ∈ l, ix.spans[m]? = none) :
    Extends g ix l (traverse g ix n) ∧
      ∃ tour, Tours tour l ∧ Visits g [.enter n] ix tour (traverse g ix n) := by
  rcases exists_clears h (h.nodup_single hg.forest hg.siblings) fresh with ⟨ix', tour, hx, ht, hc⟩
  have hvisits : Visits g [.enter n] ix tour ix' := hc.visits
  have hlimit : tour.length ≤ walkLimit g := by
    -- two visits for every node: all but the root have an edge of their own, and the limit counts
    -- two for each edge
    rcases h.exists_of_single with ⟨below, hb, hl⟩
    have hle := hg.length_below_le hb
    rw [ht.length, hl, List.length_cons, walkLimit]
    omega
  have hwalk : traverse g ix n = ix' := hvisits.walk_eq hlimit
  rw [hwalk]
  exact ⟨hx, tour, ht, hvisits⟩

theorem foldl_traverse (hg : g.Sound) (hns : ∀ n ∈ ns, n < g.nodes.size)
    (h : Preorder g.children ns l) (hl : l.Nodup) (fresh : ∀ m ∈ l, ix.spans[m]? = none) :
    Extends g ix l (ns.foldl (traverse g) ix) ∧
      ∃ tours, Sweeps g ns ix tours (ns.foldl (traverse g) ix) ∧ Tours tours.flatten l ∧
        List.Forall₂ (fun r tour => Tours tour (g.tree r)) ns tours := by
  -- one root after the other, from whatever index the earlier ones have left
  induction ns generalizing ix l with
  | nil =>
    cases h
    exact ⟨.refl ix, [], .nil, .refl _, .nil⟩
  | cons n ns ih =>
    cases h with
    | @cons _ _ below rest hb hr =>
      have hcons : n :: (below ++ rest) = n :: below ++ rest := rfl
      rw [hcons, List.nodup_append] at hl
      -- the trees are disjoint, so the first walk leaves the nodes of the others new
      have hnot : ∀ m ∈ n :: below, m ∉ rest := fun m hm hmr => hl.2.2 m hm m hmr rfl
      have hn : n < g.nodes.size := hns n List.mem_cons_self
      rcases visits_root hg hn hb.single
        fun m hm => fresh m (List.mem_append_left rest hm) with ⟨hx, tour, ht, hv⟩
      have hfresh : ∀ m ∈ rest, (traverse g ix n).spans[m]? = none := by
        intro m hm
        rw [hx.other m (fun hm' => hnot m hm' hm)]
        exact fresh m (List.mem_append_right (n :: below) hm)
      rcases ih (fun a ha => hns a (List.mem_cons_of_mem n ha)) hr hl.2.1 hfresh with
        ⟨hx', tours, hs, hts, hall⟩
      rw [List.foldl_cons, hcons]
      exact ⟨hx.trans hx', tour :: tours, .cons hv hs, ht.append hts,
        .cons (ht.of_perm (hg.perm_tree hn hb.single)) hall⟩

/-! ## The whole index -/

/-- The index holds the depth-first order of the graph with the span of every subtree. -/
structure Exact (g : Graph) (ix : SubtreeIndex) : Prop where
  order : Preorder g.children g.roots ix.order.toList
  span : ∀ n < g.nodes.size, ∃ span, ix.spans[n]? = some span ∧
    StandsAt g.children ix.order.toList n span
  missing : ∀ n, g.nodes.size ≤ n → ix.spans[n]? = none

/-- The trees of all roots are walked until nothing is pending, and every visit is due.  The visits
for a root enter and leave every node of its tree once, those for all roots every node. -/
theorem sweeps_build (hg : g.Sound) :
    ∃ l, Preorder g.children g.roots l ∧ l.Perm g.indices ∧ Extends g .empty l (build g) ∧
      ∃ tours, Sweeps g g.roots .empty tours (build g) ∧ Tours tours.flatten g.indices ∧
        List.Forall₂ (fun r tour => Tours tour (g.tree r)) g.roots tours := by
  rcases hg.exists_preorder g.roots with ⟨l, hl⟩
  rcases hg.preorder_roots hl with ⟨hnodup, hmem⟩
  have hindices : l.Perm g.indices := by
    refine (List.perm_ext_iff_of_nodup hnodup List.nodup_range).mpr fun n => ?_
    rw [hmem, List.mem_range]
  have hroots : ∀ r ∈ g.roots, r < g.nodes.size := fun r hr => (Graph.mem_roots.mp hr).1
  rcases foldl_traverse hg hroots hl hnodup fun m _ => getElem?_empty m with
    ⟨hx, tours, hsweeps, hflat, htours⟩
  exact ⟨l, hl, hindices, hx, tours, hsweeps, hflat.of_perm hindices, htours⟩

theorem exact_build (hg : g.Sound) : Exact g (build g) := by
  rcases sweeps_build hg with ⟨l, hl, hindices, hx, _⟩
  have hmem : ∀ n, n ∈ l ↔ n < g.nodes.size := fun n => hindices.mem_iff.trans Graph.mem_indices
  have horder : (build g).order.toList = l := hx.order
  refine ⟨by rw [horder]; exact hl, fun n hn => hx.span n ((hmem n).mpr hn), fun n hn => ?_⟩
  rw [hx.other n (fun hn' => absurd ((hmem n).mp hn') (Nat.not_lt.mpr hn)), getElem?_empty]

namespace Exact

/-! ## Subtrees -/

theorem subtree_preorder (hx : Exact g ix) (hn : n < g.nodes.size) :
    Preorder g.children [n] (ix.subtree n) := by
  rcases hx.span n hn with ⟨span, hspan, before, sub, after, horder, hsub, rfl⟩
  have hslice : ix.subtree n = sub := by
    rw [subtree, hspan]
    show (ix.order.extract before.length (before.length + sub.length)).toList = sub
    rw [Array.toList_extract, horder, List.extract_eq_take_drop, List.append_assoc,
      List.drop_left, Nat.add_sub_cancel_left, List.take_left]
  rw [hslice]
  exact hsub

theorem subtree_of_ge (hx : Exact g ix) (hn : g.nodes.size ≤ n) : ix.subtree n = [] := by
  rw [subtree, hx.missing n hn]

theorem mem_subtree (hx : Exact g ix) (hg : g.Sound) :
    m ∈ ix.subtree n ↔ n < g.nodes.size ∧ Climbs g.parent? m n := by
  by_cases hn : n < g.nodes.size
  · rw [(hx.subtree_preorder hn).mem_single_iff hg.siblings, and_iff_right hn]
  · rw [hx.subtree_of_ge (Nat.not_lt.mp hn)]
    exact ⟨fun hm => absurd hm List.not_mem_nil, fun h => absurd h.1 hn⟩

theorem nodup_subtree (hx : Exact g ix) (hg : g.Sound) (n : Nat) : (ix.subtree n).Nodup := by
  by_cases hn : n < g.nodes.size
  · exact (hx.subtree_preorder hn).nodup_single hg.forest hg.siblings
  · rw [hx.subtree_of_ge (Nat.not_lt.mp hn)]
    exact List.nodup_nil

/-- A subtree is its root, then the subtrees of the children in their order. -/
theorem subtree_eq (hx : Exact g ix) (hg : g.Sound) (hn : n < g.nodes.size) :
    ix.subtree n = n :: (g.children n).flatMap ix.subtree := by
  have hchild : ∀ c ∈ g.children n, Preorder g.children [c] (ix.subtree c) := fun c hc =>
    hx.subtree_preorder (hg.forest.below c n (hg.mem_children_iff.mp hc)).1
  exact (hx.subtree_preorder hn).unique (Preorder.flatMap hchild).single

theorem order_eq (hx : Exact g ix) : ix.order.toList = g.roots.flatMap ix.subtree :=
  hx.order.unique (Preorder.flatMap fun _ hr => hx.subtree_preorder (Graph.mem_roots.mp hr).1)

theorem count_order (hx : Exact g ix) (hg : g.Sound) (n : Nat) :
    ix.order.toList.count n = if n < g.nodes.size then 1 else 0 := by
  rcases hg.preorder_roots hx.order with ⟨hnodup, hmem⟩
  by_cases hn : n < g.nodes.size
  · rw [if_pos hn, List.count_eq_one_of_mem hnodup ((hmem n).mpr hn)]
  · rw [if_neg hn, List.count_eq_zero]
    exact fun h => hn ((hmem n).mp h)

/-! ## The interval test -/

theorem contains_of_ge_left (hx : Exact g ix) (hr : g.nodes.size ≤ r) (n : Nat) :
    ix.contains r n = false := by
  rw [contains, hx.missing r hr]

theorem contains_of_ge_right (hx : Exact g ix) (r : Nat) (hn : g.nodes.size ≤ n) :
    ix.contains r n = false := by
  rw [contains, hx.missing n hn]
  cases ix.spans[r]? <;> rfl

/-- The place of a node in the order is the start of its span, and it lies in the span of another
node if and only if the node is in the slice. -/
theorem contains_iff (hx : Exact g ix) (hg : g.Sound) :
    ix.contains r n ↔ n ∈ ix.subtree r := by
  by_cases hr : r < g.nodes.size
  · by_cases hn : n < g.nodes.size
    · rcases hx.span r hr with ⟨span, hspan, before, sub, after, horder, hsub, rfl⟩
      rcases hx.span n hn with ⟨place, hplace, hstands⟩
      rw [contains, hspan, hplace, (hsub.unique (hx.subtree_preorder hr)).symm]
      have hat : ix.order.toList[place.start]? = some n := hstands.getElem?_start
      have hnodup := (hg.preorder_roots hx.order).1
      rw [Bool.and_eq_true, decide_eq_true_iff, decide_eq_true_iff]
      show before.length ≤ place.start ∧ place.start < before.length + sub.length ↔ n ∈ sub
      constructor
      · intro hin
        rcases hin with ⟨hle, hlt⟩
        rw [horder, List.append_assoc, List.getElem?_append_right hle,
          List.getElem?_append_left (by omega)] at hat
        exact List.mem_of_getElem? hat
      · intro hmem
        rcases List.getElem?_of_mem hmem with ⟨i, hi⟩
        have hlt : i < sub.length := (List.getElem?_eq_some_iff.mp hi).1
        have hat' : ix.order.toList[before.length + i]? = some n := by
          rw [horder, List.append_assoc, List.getElem?_append_right (Nat.le_add_right _ _),
            Nat.add_sub_cancel_left, List.getElem?_append_left hlt, hi]
        -- a node stands at one place only
        have hsame : before.length + i = place.start :=
          (List.getElem?_inj (List.getElem?_eq_some_iff.mp hat').1 hnodup).mp (hat'.trans hat.symm)
        omega
    · rw [hx.contains_of_ge_right r (Nat.not_lt.mp hn), hx.mem_subtree hg]
      refine ⟨fun h => absurd h Bool.false_ne_true, fun h => ?_⟩
      exact absurd (hg.forest.lt_of_climbs_of_lt h.2 h.1) hn
  · rw [hx.contains_of_ge_left (Nat.not_lt.mp hr), hx.subtree_of_ge (Nat.not_lt.mp hr)]
    exact ⟨fun h => absurd h Bool.false_ne_true, fun h => absurd h List.not_mem_nil⟩

end Exact

end SubtreeIndex

/-! ## The index of a built graph -/

/-- The index of a built graph is the pre-order of its containment forest: every node once, each
subtree its root followed by the subtrees of the children, and the interval test is lying below.
A number that is no node has nothing below it and lies nowhere. -/
theorem SubtreeIndex.build_preorder (calls : List Builder.Call) :
    let g := Graph.ofCalls calls
    let ix := SubtreeIndex.build g
    (∀ n, ix.order.toList.count n = if n < g.nodes.size then 1 else 0) ∧
    ix.order.toList = g.roots.flatMap ix.subtree ∧
    (∀ n < g.nodes.size, ix.subtree n = n :: (g.children n).flatMap ix.subtree) ∧
    (∀ r n, ix.contains r n ↔
      r < g.nodes.size ∧ n < g.nodes.size ∧ Climbs g.parent? n r) ∧
    (∀ r, g.nodes.size ≤ r → ix.subtree r = []) ∧
    (∀ r, g.nodes.size ≤ r → ∀ n, ix.contains r n = false ∧ ix.contains n r = false) ∧
    (∀ r n, ix.contains r n ↔ n ∈ ix.subtree r) := by
  intro g ix
  have hg : g.Sound := Graph.sound_ofCalls calls
  have hx : Exact g ix := exact_build hg
  refine ⟨hx.count_order hg, hx.order_eq, fun n hn => hx.subtree_eq hg hn, fun r n => ?_,
    fun r hr => hx.subtree_of_ge hr,
    fun r hr n => ⟨hx.contains_of_ge_left hr n, hx.contains_of_ge_right n hr⟩,
    fun r n => hx.contains_iff hg⟩
  rw [hx.contains_iff hg, hx.mem_subtree hg]
  exact ⟨fun h => ⟨h.1, hg.forest.lt_of_climbs_of_lt h.2 h.1, h.2⟩, fun h => ⟨h.1, h.2.2⟩⟩

end UnitGraph
