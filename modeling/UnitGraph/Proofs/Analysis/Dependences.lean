import Mathlib.Data.List.Sort
import UnitGraph.Analysis.Dependences
import UnitGraph.Proofs.Graph.Indexing

/-!
# Which dependences are benign

The questions about dependences are scans over slices of the subtree index.  On a sound graph with
its own index each of them says something about the edges and the containment forest alone, and the
bulk question, which remembers what it has found out about a variable, agrees with the questions
about single edges.
-/

namespace UnitGraph

/-! ## Sorted lists -/

section Sorted

variable {α : Type} [DecidableEq α] {x : α} {xs : List α}

theorem dropRepeats_cons (x : α) (xs : List α) : dropRepeats (x :: xs) =
    if (dropRepeats xs).head? = some x then dropRepeats xs else x :: dropRepeats xs := rfl

theorem mem_dropRepeats : x ∈ dropRepeats xs ↔ x ∈ xs := by
  induction xs with
  | nil => exact Iff.rfl
  | cons y xs ih =>
    rw [dropRepeats_cons, List.mem_cons, ← ih]
    split
    · rename_i hhead
      refine ⟨Or.inr, fun hx => ?_⟩
      rcases hx with rfl | hx
      · exact List.mem_of_mem_head? hhead
      · exact hx
    · exact List.mem_cons

/-- In a sorted list equals stand side by side, so no two are left. -/
theorem pairwise_dropRepeats {le : α → α → Prop} (hanti : ∀ a b, le a b → le b a → a = b)
    (h : xs.Pairwise le) : (dropRepeats xs).Pairwise fun a b => le a b ∧ a ≠ b := by
  induction xs with
  | nil => exact .nil
  | cons y xs ih =>
    rw [List.pairwise_cons] at h
    have hrest := ih h.2
    rw [dropRepeats_cons]
    split
    · exact hrest
    · rename_i hhead
      have hle : ∀ a ∈ dropRepeats xs, le y a := fun a ha => h.1 a (mem_dropRepeats.mp ha)
      refine List.pairwise_cons.mpr ⟨fun a ha => ⟨hle a ha, ?_⟩, hrest⟩
      rintro rfl
      -- the first entry left would lie between `y` and an equal of `y`
      cases hxs : dropRepeats xs with
      | nil =>
        rw [hxs] at ha
        exact absurd ha List.not_mem_nil
      | cons b rest =>
        rw [hxs] at ha hle hhead hrest
        have hne : b ≠ y := fun h => hhead (congrArg some h)
        rcases List.mem_cons.mp ha with rfl | ha
        · exact hne rfl
        · have hb := (List.pairwise_cons.mp hrest).1 y ha
          exact hne (hanti b y hb.1 (hle b List.mem_cons_self))

theorem mem_sortDistinct {le : α → α → Bool} : x ∈ sortDistinct le xs ↔ x ∈ xs := by
  rw [sortDistinct, mem_dropRepeats, List.mem_mergeSort]

theorem pairwise_sortDistinct (ns : List Nat) : (sortDistinct (· ≤ ·) ns).Pairwise (· < ·) := by
  have hsorted : (ns.mergeSort (· ≤ ·)).Pairwise (· ≤ ·) := List.pairwise_mergeSort' (· ≤ ·) ns
  exact (pairwise_dropRepeats (fun _ _ => Nat.le_antisymm) hsorted).imp fun h =>
    Nat.lt_of_le_of_ne h.1 h.2

end Sorted

theorem DependenceKind.writesAtSink_iff (k : DependenceKind) :
    k.writesAtSink ↔ k = .waw ∨ k = .war := by
  cases k <;> decide

/-! ## Dependence edges -/

namespace Graph

variable {g : Graph} {d : DependenceEdge} {i n s t : Nat}

theorem dependence?_eq_some : g.dependence? i = some d ↔
    d.edge = i ∧ g.edges[i]? = some ⟨d.source, d.target, .dependence d.dependence⟩ := by
  constructor
  · intro h
    rcases Option.bind_eq_some_iff.mp h with ⟨⟨s, t, l⟩, he, h⟩
    rcases Option.bind_eq_some_iff.mp h with ⟨label, hl, h⟩
    cases l with
    | child => cases hl
    | dependence label' =>
      cases hl
      cases h
      exact ⟨rfl, he⟩
  · intro h
    rcases h with ⟨rfl, he⟩
    rw [dependence?, he]
    rfl

theorem mem_dependenceEdges : d ∈ g.dependenceEdges ↔
    g.edges[d.edge]? = some ⟨d.source, d.target, .dependence d.dependence⟩ := by
  rw [dependenceEdges, List.mem_filterMap]
  constructor
  · intro hin
    rcases hin with ⟨⟨⟨s, t, l⟩, i⟩, hmem, hd⟩
    rcases Option.map_eq_some_iff.mp hd with ⟨label, hl, rfl⟩
    cases l with
    | child => cases hl
    | dependence label' =>
      cases hl
      rw [List.mem_zipIdx_iff_getElem?, Array.getElem?_toList] at hmem
      exact hmem
  · intro he
    refine ⟨(⟨d.source, d.target, .dependence d.dependence⟩, d.edge), ?_, rfl⟩
    rw [List.mem_zipIdx_iff_getElem?, Array.getElem?_toList]
    exact he

theorem mem_edges_of_mem_dependenceEdges (h : d ∈ g.dependenceEdges) :
    ⟨d.source, d.target, .dependence d.dependence⟩ ∈ g.edges :=
  Array.mem_of_getElem? (mem_dependenceEdges.mp h)

theorem exists_mem_dependenceEdges {label : Dependence} (h : ⟨s, t, .dependence label⟩ ∈ g.edges) :
    ∃ i, ⟨i, s, t, label⟩ ∈ g.dependenceEdges := by
  rcases Array.mem_iff_getElem?.mp h with ⟨i, hi⟩
  exact ⟨i, mem_dependenceEdges.mpr hi⟩

theorem mem_outgoing : d ∈ g.outgoing n ↔ d ∈ g.dependenceEdges ∧ d.source = n := by
  rw [outgoing, List.mem_reverse, List.mem_filter, decide_eq_true_iff]

theorem mem_incoming : d ∈ g.incoming n ↔ d ∈ g.dependenceEdges ∧ d.target = n := by
  rw [incoming, List.mem_reverse, List.mem_filter, decide_eq_true_iff]

theorem mem_outgoingOfKind {kind : DependenceKind} : d ∈ g.outgoingOfKind n kind ↔
    d ∈ g.dependenceEdges ∧ d.source = n ∧ d.dependence.kind = kind := by
  rw [outgoingOfKind, List.mem_filter, mem_outgoing, decide_eq_true_iff, and_assoc]

theorem any_outgoing (g : Graph) (n : Nat) (q : Dependence → Bool) :
    (g.outgoing n).any (fun d => q d.dependence) ↔
      ∃ t d, ⟨n, t, .dependence d⟩ ∈ g.edges ∧ q d := by
  rw [List.any_eq_true]
  constructor
  · intro hin
    rcases hin with ⟨d, hd, hq⟩
    rcases mem_outgoing.mp hd with ⟨hmem, rfl⟩
    exact ⟨d.target, d.dependence, mem_edges_of_mem_dependenceEdges hmem, hq⟩
  · intro hin
    rcases hin with ⟨t, d, he, hq⟩
    rcases exists_mem_dependenceEdges he with ⟨i, hi⟩
    exact ⟨_, mem_outgoing.mpr ⟨hi, rfl⟩, hq⟩

theorem any_incoming (g : Graph) (n : Nat) (q : Dependence → Bool) :
    (g.incoming n).any (fun d => q d.dependence) ↔
      ∃ s d, ⟨s, n, .dependence d⟩ ∈ g.edges ∧ q d := by
  rw [List.any_eq_true]
  constructor
  · intro hin
    rcases hin with ⟨d, hd, hq⟩
    rcases mem_incoming.mp hd with ⟨hmem, rfl⟩
    exact ⟨d.source, d.dependence, mem_edges_of_mem_dependenceEdges hmem, hq⟩
  · intro hin
    rcases hin with ⟨s, d, he, hq⟩
    rcases exists_mem_dependenceEdges he with ⟨i, hi⟩
    exact ⟨_, mem_incoming.mpr ⟨hi, rfl⟩, hq⟩

theorem any_dependence? (g : Graph) (i : Nat) (q : DependenceEdge → Bool) :
    (g.dependence? i).any q ↔
      ∃ s t d, g.edges[i]? = some ⟨s, t, .dependence d⟩ ∧ q ⟨i, s, t, d⟩ := by
  rw [Option.any_eq_true]
  constructor
  · intro hin
    rcases hin with ⟨d, hd, hq⟩
    rcases dependence?_eq_some.mp hd with ⟨rfl, he⟩
    exact ⟨d.source, d.target, d.dependence, he, hq⟩
  · intro hin
    rcases hin with ⟨s, t, d, he, hq⟩
    exact ⟨_, dependence?_eq_some.mpr ⟨rfl, he⟩, hq⟩

/-! ## What benign means -/

def HeaderUnder (g : Graph) (enclosing : Nat) (line : SourceLine) : Prop :=
  ∃ l node, g.node? l = some node ∧ node.kind = .loop ∧ Climbs g.parent? l enclosing ∧
    node.line = line

/-- The dependence stays on a header line under the enclosing node and its target lies there. -/
structure LoopIndex (g : Graph) (enclosing target : Nat) (d : Dependence) : Prop where
  line : d.sourceLine = d.sinkLine
  header : g.HeaderUnder enclosing d.sourceLine
  target : Climbs g.parent? target enclosing

/-- The units under the enclosing node write the variable on header lines only.  A write dependence
has its write at the sink, where the edge leaves, and a read-after-write one at the source. -/
structure ReadOnly (g : Graph) (enclosing : Nat) (var : String) : Prop where
  sink : ∀ s t d, ⟨s, t, .dependence d⟩ ∈ g.edges → d.var = var → d.kind = .waw ∨ d.kind = .war →
    Climbs g.parent? s enclosing → g.HeaderUnder enclosing d.sinkLine
  source : ∀ s t d, ⟨s, t, .dependence d⟩ ∈ g.edges → d.var = var → d.kind = .raw →
    Climbs g.parent? t enclosing → g.HeaderUnder enclosing d.sourceLine

end Graph

def Graph.classifier (g : Graph) : Classifier := ⟨g, .build g⟩

@[simp] theorem Graph.classifier_graph (g : Graph) : g.classifier.graph = g := rfl

namespace Classifier

structure Sound (c : Classifier) : Prop where
  graph : c.graph.Sound
  index : c.index.Exact c.graph

theorem sound_classifier {g : Graph} (h : g.Sound) : g.classifier.Sound :=
  ⟨h, SubtreeIndex.exact_build h⟩

namespace Sound

variable {c : Classifier} {u n L r : Nat} {d : DependenceEdge} {var : String}

/-! ## Scopes -/

theorem mem_subtree (h : c.Sound) (hu : u < c.graph.nodes.size) :
    u ∈ c.index.subtree n ↔ Climbs c.graph.parent? u n := by
  rw [h.index.mem_subtree h.graph]
  exact ⟨And.right, fun hc => ⟨h.graph.forest.lt_of_climbs hc hu, hc⟩⟩

theorem contains_iff (h : c.Sound) (hu : u < c.graph.nodes.size) :
    c.index.contains r u ↔ Climbs c.graph.parent? u r := by
  rw [h.index.contains_iff h.graph, h.mem_subtree hu]

theorem mem_subtreeOfKind (h : c.Sound) {kind : NodeKind} :
    u ∈ c.index.subtreeOfKind c.graph n kind ↔
      c.graph.isKind u kind ∧ Climbs c.graph.parent? u n := by
  rw [SubtreeIndex.subtreeOfKind, List.mem_filter, and_comm]
  exact and_congr_right fun hu => h.mem_subtree (Graph.lt_of_isKind hu)

/-- Both ends of a dependence are units. -/
theorem isKind_ends (h : c.Sound) (hd : d ∈ c.graph.dependenceEdges) :
    c.graph.isKind d.source .unit ∧ c.graph.isKind d.target .unit :=
  h.graph.units _ _ _ (Graph.mem_edges_of_mem_dependenceEdges hd)

theorem mem_headerLines (h : c.Sound) {line : SourceLine} :
    line ∈ (c.scope L).headerLines ↔ c.graph.HeaderUnder L line := by
  rw [scope, List.mem_filterMap, Graph.HeaderUnder]
  constructor
  · intro hin
    rcases hin with ⟨l, hl, hline⟩
    rcases Option.map_eq_some_iff.mp hline with ⟨node, hnode, hline⟩
    rw [h.mem_subtreeOfKind, Graph.isKind_iff] at hl
    rcases hl with ⟨⟨node', hnode', hkind⟩, hc⟩
    rw [Option.some.inj (hnode'.symm.trans hnode)] at hkind
    exact ⟨l, node, hnode, hkind, hc, hline⟩
  · intro hin
    rcases hin with ⟨l, node, hnode, hkind, hc, hline⟩
    refine ⟨l, h.mem_subtreeOfKind.mpr ⟨Graph.isKind_iff.mpr ⟨node, hnode, hkind⟩, hc⟩, ?_⟩
    rw [hnode, Option.map_some, hline]

theorem contains_headerLines (h : c.Sound) {line : SourceLine} :
    (c.scope L).headerLines.contains line ↔ c.graph.HeaderUnder L line := by
  rw [List.contains_iff_mem, h.mem_headerLines]

theorem not_contains_headerLines (h : c.Sound) {line : SourceLine} :
    !(c.scope L).headerLines.contains line ↔ ¬c.graph.HeaderUnder L line := by
  rw [Bool.not_eq_true', ← Bool.not_eq_true, h.contains_headerLines]

/-! ## Single edges -/

theorem isLoopIndexIn_iff (h : c.Sound) (hd : d ∈ c.graph.dependenceEdges) :
    c.isLoopIndexIn (c.scope L) d ↔ c.graph.LoopIndex L d.target d.dependence := by
  have hunit := (h.isKind_ends hd).2
  have hcontains := h.contains_iff (r := L) (Graph.lt_of_isKind hunit)
  rw [isLoopIndexIn, Dependence.isSelfReferential, Bool.and_eq_true, Bool.and_eq_true,
    Bool.and_eq_true, decide_eq_true_iff, h.contains_headerLines]
  constructor
  · intro hin
    rcases hin with ⟨⟨⟨hline, hheader⟩, htarget⟩, _⟩
    exact ⟨hline, hheader, hcontains.mp htarget⟩
  · intro hin
    exact ⟨⟨⟨hin.line, hin.header⟩, hcontains.mpr hin.target⟩, hunit⟩

theorem writesInBody_iff (h : c.Sound) :
    c.writesInBody (c.scope L) var u ↔
      (∃ t d, ⟨u, t, .dependence d⟩ ∈ c.graph.edges ∧
        ((d.kind = .waw ∨ d.kind = .war) ∧ d.var = var) ∧ ¬c.graph.HeaderUnder L d.sinkLine) ∨
      ∃ s d, ⟨s, u, .dependence d⟩ ∈ c.graph.edges ∧
        (d.kind = .raw ∧ d.var = var) ∧ ¬c.graph.HeaderUnder L d.sourceLine := by
  have hout := Graph.any_outgoing c.graph u fun d =>
    d.kind.writesAtSink && d.var = var && !(c.scope L).headerLines.contains d.sinkLine
  have hin := Graph.any_incoming c.graph u fun d =>
    d.kind = .raw && d.var = var && !(c.scope L).headerLines.contains d.sourceLine
  rw [writesInBody, Bool.or_eq_true, hout, hin]
  simp only [Bool.and_eq_true, decide_eq_true_iff, h.not_contains_headerLines,
    DependenceKind.writesAtSink_iff]

theorem isReadOnlyIn_iff (h : c.Sound) :
    c.isReadOnlyIn (c.scope L) var ↔ c.graph.ReadOnly L var := by
  have hunits : ∀ u, u ∈ (c.scope L).units ↔
      c.graph.isKind u .unit ∧ Climbs c.graph.parent? u L := fun _ => h.mem_subtreeOfKind
  simp only [isReadOnlyIn, List.all_eq_true, Bool.not_eq_true', ← Bool.not_eq_true,
    h.writesInBody_iff, hunits]
  constructor
  · intro hall
    -- every dependence below `L` leaves or enters a unit there, which was asked
    refine ⟨fun s t d he hvar hkind hc => ?_, fun s t d he hvar hkind hc => ?_⟩
    · have hno := hall s ⟨(h.graph.units s t d he).1, hc⟩
      by_contra hline
      exact hno (.inl ⟨t, d, he, ⟨hkind, hvar⟩, hline⟩)
    · have hno := hall t ⟨(h.graph.units s t d he).2, hc⟩
      by_contra hline
      exact hno (.inr ⟨s, d, he, ⟨hkind, hvar⟩, hline⟩)
  · intro hro u hu hin
    rcases hin with ⟨t, d, he, ⟨hkind, hvar⟩, hline⟩ | ⟨s, d, he, ⟨hkind, hvar⟩, hline⟩
    · exact hline (hro.sink u t d he hvar hkind hu.2)
    · exact hline (hro.source s u d he hvar hkind hu.2)

/-- Whether an edge is a loop index, read off the edges and the containment forest. -/
theorem isLoopIndex_iff (h : c.Sound) {e : Nat} : c.isLoopIndex e L ↔
    ∃ s t d, c.graph.edges[e]? = some ⟨s, t, .dependence d⟩ ∧ c.graph.LoopIndex L t d := by
  rw [isLoopIndex, Graph.any_dependence?]
  constructor
  · intro hin
    rcases hin with ⟨s, t, d, he, hq⟩
    exact ⟨s, t, d, he, (h.isLoopIndexIn_iff (Graph.mem_dependenceEdges.mpr he)).mp hq⟩
  · intro hin
    rcases hin with ⟨s, t, d, he, hq⟩
    exact ⟨s, t, d, he, (h.isLoopIndexIn_iff (Graph.mem_dependenceEdges.mpr he)).mpr hq⟩

theorem isLoopIndex_of_edge (h : c.Sound) {e s t : Nat} {d : Dependence}
    (he : c.graph.edges[e]? = some ⟨s, t, .dependence d⟩) :
    c.isLoopIndex e L ↔ c.graph.LoopIndex L t d := by
  rw [h.isLoopIndex_iff]
  constructor
  · intro hin
    rcases hin with ⟨s', t', d', he', hindex⟩
    cases he.symm.trans he'
    exact hindex
  · intro hindex
    exact ⟨s, t, d, he, hindex⟩

theorem isReadOnlyInLoopBody_iff (h : c.Sound) {e : Nat} : c.isReadOnlyInLoopBody e L ↔
    ∃ s t d, c.graph.edges[e]? = some ⟨s, t, .dependence d⟩ ∧ c.graph.ReadOnly L d.var := by
  rw [isReadOnlyInLoopBody, Graph.any_dependence?]
  simp only [h.isReadOnlyIn_iff]

theorem isReadOnlyInLoopBody_of_edge (h : c.Sound) {e s t : Nat} {d : Dependence}
    (he : c.graph.edges[e]? = some ⟨s, t, .dependence d⟩) :
    c.isReadOnlyInLoopBody e L ↔ c.graph.ReadOnly L d.var := by
  rw [h.isReadOnlyInLoopBody_iff]
  constructor
  · intro hin
    rcases hin with ⟨s', t', d', he', hreadOnly⟩
    cases he.symm.trans he'
    exact hreadOnly
  · intro hreadOnly
    exact ⟨s, t, d, he, hreadOnly⟩

end Sound

/-! ## The bulk question -/

section Bulk

variable {c : Classifier} {s : LoopScope} {memo : ReadOnlyMemo}

/-- What is remembered of a variable is what would be found out about it. -/
def Remembers (c : Classifier) (s : LoopScope) (memo : ReadOnlyMemo) : Prop :=
  ∀ var known : _, memo[var]? = some known → known = c.isReadOnlyIn s var

theorem remembers_empty : c.Remembers s ∅ := by
  intro var known hknown
  rw [Std.ExtHashMap.getElem?_empty] at hknown
  exact absurd hknown (Option.some_ne_none known).symm

theorem readOnlyMemo_spec (h : c.Remembers s memo) (var : String) :
    (c.readOnlyMemo s memo var).1 = c.isReadOnlyIn s var ∧
      c.Remembers s (c.readOnlyMemo s memo var).2 := by
  rw [readOnlyMemo]
  cases hvar : memo[var]? with
  | some known => exact ⟨h var known hvar, h⟩
  | none =>
    refine ⟨rfl, fun var' known hknown => ?_⟩
    rw [Std.ExtHashMap.getElem?_insert] at hknown
    split at hknown
    · rename_i heq
      rw [← Option.some.inj hknown, beq_iff_eq.mp heq]
    · exact h var' known hknown

/-- Asking for a variable only when an edge is a loop index, and once, drops the same edges as
asking for each edge. -/
theorem nonBenignTargets_eq (h : c.Remembers s memo) (ds : List DependenceEdge) :
    c.nonBenignTargets s memo ds =
      (ds.filter fun d => !(c.isLoopIndexIn s d && c.isReadOnlyIn s d.dependence.var)).map
        DependenceEdge.target := by
  -- the memo is general: it has grown by the variables of the edges before
  induction ds generalizing memo with
  | nil => rfl
  | cons d ds ih =>
    rw [nonBenignTargets, List.filter_cons]
    cases hindex : c.isLoopIndexIn s d with
    | false =>
      rw [ih h]
      rfl
    | true =>
      -- only for a loop index is the variable looked up, and from then on remembered
      rcases readOnlyMemo_spec h d.dependence.var with ⟨heq, hafter⟩
      rw [if_pos rfl, Bool.true_and]
      show (if (c.readOnlyMemo s memo d.dependence.var).1
        then c.nonBenignTargets s (c.readOnlyMemo s memo d.dependence.var).2 ds
        else d.target :: c.nonBenignTargets s (c.readOnlyMemo s memo d.dependence.var).2 ds) = _
      rw [heq, ih hafter]
      cases c.isReadOnlyIn s d.dependence.var <;> rfl

end Bulk

namespace Sound

variable {c : Classifier} {n m L s t : Nat}

/-- The bulk question finds the target of a dependence unless both questions about the edge are
answered yes. -/
theorem mem_nonBenignDependencies (h : c.Sound) : m ∈ c.nonBenignDependencies n L ↔
    ∃ s d, ⟨s, m, .dependence d⟩ ∈ c.graph.edges ∧ d.kind = .raw ∧ Climbs c.graph.parent? s n ∧
      ¬(c.graph.LoopIndex L m d ∧ c.graph.ReadOnly L d.var) := by
  rw [nonBenignDependencies, mem_sortDistinct, nonBenignTargets_eq remembers_empty, List.mem_map]
  constructor
  · intro hin
    -- a target that was not dropped comes from an edge that leaves a unit below `n`
    rcases hin with ⟨d, hd, rfl⟩
    rw [List.mem_filter, List.mem_flatMap] at hd
    rcases hd with ⟨⟨u, hu, hd⟩, hbenign⟩
    rw [h.mem_subtreeOfKind] at hu
    rw [Graph.mem_outgoingOfKind] at hd
    rcases hd with ⟨hd, rfl, hkind⟩
    rw [Bool.not_eq_true', ← Bool.not_eq_true, Bool.and_eq_true, h.isLoopIndexIn_iff hd,
      h.isReadOnlyIn_iff] at hbenign
    exact ⟨d.source, d.dependence, Graph.mem_edges_of_mem_dependenceEdges hd, hkind, hu.2, hbenign⟩
  · intro hin
    rcases hin with ⟨s, d, he, hkind, hc, hbenign⟩
    rcases Graph.exists_mem_dependenceEdges he with ⟨i, hi⟩
    refine ⟨⟨i, s, m, d⟩, ?_, rfl⟩
    rw [List.mem_filter, List.mem_flatMap]
    refine ⟨⟨s, h.mem_subtreeOfKind.mpr ⟨(h.isKind_ends hi).1, hc⟩, ?_⟩, ?_⟩
    · exact Graph.mem_outgoingOfKind.mpr ⟨hi, rfl, hkind⟩
    · rw [Bool.not_eq_true', ← Bool.not_eq_true, Bool.and_eq_true, h.isLoopIndexIn_iff hi,
        h.isReadOnlyIn_iff]
      exact hbenign

theorem hasDependency_iff (h : c.Sound) : c.hasDependency s t ↔
    s ≠ t ∧ ∃ u v d, ⟨u, v, .dependence d⟩ ∈ c.graph.edges ∧ d.kind = .raw ∧
      Climbs c.graph.parent? u s ∧ Climbs c.graph.parent? v t := by
  rw [hasDependency, Bool.and_eq_true, bne_iff_ne, List.any_eq_true]
  refine and_congr_right fun _ => ?_
  constructor
  · intro hin
    rcases hin with ⟨u, hu, hany⟩
    rcases List.any_eq_true.mp hany with ⟨d, hd, hcontains⟩
    rcases Graph.mem_outgoingOfKind.mp hd with ⟨hmem, rfl, hkind⟩
    -- the ends are units, so the index has their places
    have hends := h.isKind_ends hmem
    rw [h.contains_iff (Graph.lt_of_isKind hends.2)] at hcontains
    rw [h.mem_subtree (Graph.lt_of_isKind hends.1)] at hu
    exact ⟨d.source, d.target, d.dependence, Graph.mem_edges_of_mem_dependenceEdges hmem, hkind,
      hu, hcontains⟩
  · intro hin
    rcases hin with ⟨u, v, d, he, hkind, hu, hv⟩
    have hends := h.graph.units u v d he
    rcases Graph.exists_mem_dependenceEdges he with ⟨i, hi⟩
    refine ⟨u, (h.mem_subtree (Graph.lt_of_isKind hends.1)).mpr hu, List.any_eq_true.mpr ?_⟩
    exact ⟨_, Graph.mem_outgoingOfKind.mpr ⟨hi, rfl, hkind⟩,
      (h.contains_iff (Graph.lt_of_isKind hends.2)).mpr hv⟩

theorem hasDependencyIgnoringBenign_iff (h : c.Sound) : c.hasDependencyIgnoringBenign s t L ↔
    s ≠ t ∧ ∃ m ∈ c.nonBenignDependencies s L, Climbs c.graph.parent? m t := by
  rw [hasDependencyIgnoringBenign, Bool.and_eq_true, bne_iff_ne, List.any_eq_true]
  refine and_congr_right fun _ => exists_congr fun m => and_congr_right fun hm => ?_
  rcases h.mem_nonBenignDependencies.mp hm with ⟨u, d, he, _⟩
  exact h.contains_iff (Graph.lt_of_isKind (h.graph.units u m d he).2)

end Sound

/-- On a built graph the bulk question lists, in increasing order and once, the targets of those
read-after-write dependences that leave units under the node and for which not both questions about
the edge are answered yes.  Those two questions are answered as the edges and the containment forest
say. -/
theorem nonBenignDependencies_exact (calls : List Builder.Call) :
    let g := Graph.ofCalls calls
    let c := g.classifier
    (∀ n L, (c.nonBenignDependencies n L).Pairwise (· < ·)) ∧
    (∀ n L m, m ∈ c.nonBenignDependencies n L ↔
      ∃ e s d, g.edges[e]? = some ⟨s, m, .dependence d⟩ ∧ d.kind = .raw ∧ g.isKind s .unit ∧
        Climbs g.parent? s n ∧ ¬(c.isLoopIndex e L ∧ c.isReadOnlyInLoopBody e L)) ∧
    (∀ e L, c.isLoopIndex e L ↔
      ∃ s t d, g.edges[e]? = some ⟨s, t, .dependence d⟩ ∧ g.LoopIndex L t d) ∧
    (∀ e L, c.isReadOnlyInLoopBody e L ↔
      ∃ s t d, g.edges[e]? = some ⟨s, t, .dependence d⟩ ∧ g.ReadOnly L d.var) := by
  intro g c
  have h : c.Sound := sound_classifier (Graph.sound_ofCalls calls)
  refine ⟨fun n L => pairwise_sortDistinct _, fun n L m => ?_, fun e L => h.isLoopIndex_iff,
    fun e L => h.isReadOnlyInLoopBody_iff⟩
  rw [h.mem_nonBenignDependencies]
  constructor
  · intro hin
    rcases hin with ⟨s, d, he, hkind, hc, hbenign⟩
    -- an edge has a number, and every number of the same label gives the same answer
    rcases Array.mem_iff_getElem?.mp he with ⟨e, hi⟩
    refine ⟨e, s, d, hi, hkind, (h.graph.units s m d he).1, hc, ?_⟩
    rw [h.isLoopIndex_of_edge hi, h.isReadOnlyInLoopBody_of_edge hi]
    exact hbenign
  · intro hin
    rcases hin with ⟨e, s, d, hi, hkind, _, hc, hbenign⟩
    rw [h.isLoopIndex_of_edge hi, h.isReadOnlyInLoopBody_of_edge hi] at hbenign
    exact ⟨s, d, Array.mem_of_getElem? hi, hkind, hc, hbenign⟩

end Classifier

end UnitGraph
