import UnitGraph.Detection.Detector
import UnitGraph.Proofs.Analysis.Iterations
import UnitGraph.Proofs.Count
import UnitGraph.Proofs.Graph.Containment

/-!
# Chunking loops and the counts of their header lines

The chunking loops of a function are read off its children and its grandchildren.  Their counts are
gathered by header line, where a later loop takes the place of an earlier one of the same line.  A
count can be lost that way, but never the line, and loops of one line run or rest together.
-/

namespace UnitGraph

/-! ## Chunking loops -/

namespace Graph

variable {g : Graph} {f l : Nat}

def Chunk (g : Graph) (f l : Nat) : Prop :=
  g.isKind l .loop ∧
    (g.parent? l = some f ∨
      ∃ h, g.parent? l = some h ∧ g.isKind h .function ∧ g.parent? h = some f)

theorem Sound.mem_chunkLoops (hg : g.Sound) : l ∈ g.chunkLoops f ↔ g.Chunk f l := by
  rw [chunkLoops, List.mem_append, List.mem_flatMap, mem_childrenOfKind, hg.mem_children_iff]
  constructor
  · intro hin
    rcases hin with ⟨hp, hl⟩ | ⟨h, hh, hl⟩
    · exact ⟨hl, .inl hp⟩
    · rw [mem_childrenOfKind, hg.mem_children_iff] at hh hl
      exact ⟨hl.2, .inr ⟨h, hl.1, hh.2, hh.1⟩⟩
  · intro hin
    rcases hin with ⟨hl, hp | ⟨h, hp, hkind, hh⟩⟩
    · exact .inl ⟨hp, hl⟩
    · refine .inr ⟨h, ?_, ?_⟩ <;> rw [mem_childrenOfKind, hg.mem_children_iff]
      · exact ⟨hh, hkind⟩
      · exact ⟨hp, hl⟩

/-- Between a function and its chunking loops there is no other loop, so all of them are in the same
loop, if in any. -/
theorem Sound.enclosingLoop?_chunk (hg : g.Sound) (hl : g.Chunk f l) :
    g.enclosingLoop? l = if g.isKind f .loop then some f else g.enclosingLoop? f := by
  rcases hl with ⟨_, hp | ⟨h, hp, hkind, hh⟩⟩
  · exact hg.enclosingLoop?_of_parent hp
  · have hloop : ¬g.isKind h .loop := fun hloop => nomatch isKind_unique hkind hloop
    rw [hg.enclosingLoop?_of_parent hp, if_neg hloop, hg.enclosingLoop?_of_parent hh]

end Graph

/-- Chunking loops that begin on one line run equally often in each invocation. -/
theorem Estimator.answer_chunk {g : Graph} (hg : g.Sound) {f l k : Nat} {p : Profile}
    {node node' : Node} (hl : g.Chunk f l) (hk : g.Chunk f k) (hnode : g.node? l = some node)
    (hnode' : g.node? k = some node') (hline : node.line = node'.line) :
    (new p).answer g l = (new p).answer g k := by
  have hraw : (new p).raw g l = (new p).raw g k := by
    rw [raw, raw, hnode, hnode', Option.elim_some, Option.elim_some, hline]
  have hparent : (new p).parent g l = (new p).parent g k := by
    rw [parent, parent, hg.enclosingLoop?_chunk hl, hg.enclosingLoop?_chunk hk]
  rw [answer_new, answer_new, hraw, hparent]

/-! ## Counts by header line -/

namespace HeaderCounts

variable {s : Session} {ls : List Nat} {counts : HeaderCounts}

/-- The counts are those that the session answers for loops of the list, and no line is missing. -/
structure Of (s : Session) (ls : List Nat) (counts : HeaderCounts) : Prop where
  answers : ∀ line c, counts[line]? = some c →
    ∃ l ∈ ls, ∃ node, s.graph.node? l = some node ∧ node.line = line ∧ s.answer l = c
  lines : ∀ l ∈ ls, ∀ node, s.graph.node? l = some node → (counts[node.line]?).isSome

theorem Of.empty (s : Session) : Of s [] ∅ where
  answers line c h := by
    rw [Std.ExtTreeMap.getElem?_empty] at h
    exact absurd h (Option.some_ne_none c).symm
  lines _ h := absurd h List.not_mem_nil

theorem Of.missing (h : Of s ls counts) {l : Nat} (hl : s.graph.node? l = none) :
    Of s (ls ++ [l]) counts where
  answers line c hc := by
    rcases h.answers line c hc with ⟨k, hk, hnode⟩
    exact ⟨k, List.mem_append_left _ hk, hnode⟩
  lines k hk node hnode := by
    rcases List.mem_append.mp hk with hk | hk
    · exact h.lines k hk node hnode
    · rw [List.mem_singleton.mp hk, hl] at hnode
      exact absurd hnode (Option.some_ne_none node).symm

theorem Of.insert (h : Of s ls counts) {l : Nat} {node : Node} (hl : s.graph.node? l = some node) :
    Of s (ls ++ [l]) (counts.insert node.line (s.answer l)) where
  answers line c hc := by
    -- a count is that of the new loop if it stands under its line, else it was there before
    rw [Std.ExtTreeMap.getElem?_insert] at hc
    split at hc
    · rename_i heq
      exact ⟨l, List.mem_append_right _ (List.mem_singleton_self l), node, hl,
        Std.LawfulEqOrd.eq_of_compare heq, Option.some.inj hc⟩
    · rcases h.answers line c hc with ⟨k, hk, hnode⟩
      exact ⟨k, List.mem_append_left _ hk, hnode⟩
  lines k hk node' hnode' := by
    rw [Std.ExtTreeMap.getElem?_insert]
    split
    · rfl
    · -- another line was written, so the loop is one of the earlier ones
      rename_i hne
      rcases List.mem_append.mp hk with hk | hk
      · exact h.lines k hk node' hnode'
      · rw [List.mem_singleton.mp hk, hl] at hnode'
        rw [Option.some.inj hnode'] at hne
        exact absurd Std.ReflCmp.compare_self hne

/-- Counting a loop keeps the counts right, whatever the session has remembered since. -/
theorem Of.countHeader {s' : Session} (h : Of s ls counts) (hs : s.Follows s') (l : Nat) :
    Of s (ls ++ [l]) (countHeader (counts, s') l).1 ∧
      s.Follows (UnitGraph.countHeader (counts, s') l).2 := by
  rw [UnitGraph.countHeader, hs.graph]
  cases hl : s.graph.node? l with
  | none => exact ⟨h.missing hl, hs⟩
  | some node =>
    refine ⟨?_, hs.trans (Session.follows_effectiveIterations s' l)⟩
    show Of s (ls ++ [l]) (counts.insert node.line (s'.effectiveIterations l).1)
    rw [Session.effectiveIterations_fst, hs.answer]
    exact h.insert hl

theorem Of.foldl {s' : Session} (h : Of s ls counts) (hs : s.Follows s') (ks : List Nat) :
    Of s (ls ++ ks) (ks.foldl UnitGraph.countHeader (counts, s')).1 ∧
      s.Follows (ks.foldl UnitGraph.countHeader (counts, s')).2 := by
  induction ks generalizing ls counts s' with
  | nil =>
    rw [List.append_nil]
    exact ⟨h, hs⟩
  | cons k ks ih =>
    rcases h.countHeader hs k with ⟨h', hs'⟩
    rw [List.append_cons, List.foldl_cons]
    exact ih h' hs'

/-! ## The least count -/

def least (counts : HeaderCounts) : Option Count :=
  (counts.toList.map Prod.snd).min?

theorem mem_values {c : Count} :
    c ∈ counts.toList.map Prod.snd ↔ ∃ line : SourceLine, counts[line]? = some c := by
  rw [List.mem_map]
  constructor
  · intro hin
    rcases hin with ⟨⟨line, c'⟩, hmem, rfl⟩
    exact ⟨line, Std.ExtTreeMap.mem_toList_iff_getElem?_eq_some.mp hmem⟩
  · intro hin
    rcases hin with ⟨line, hline⟩
    exact ⟨(line, c), Std.ExtTreeMap.mem_toList_iff_getElem?_eq_some.mpr hline, rfl⟩

theorem Of.exists_value (h : Of s ls counts) {l : Nat} {node : Node} (hl : l ∈ ls)
    (hnode : s.graph.node? l = some node) : ∃ c, counts[node.line]? = some c :=
  Option.isSome_iff_exists.mp (h.lines l hl node hnode)

theorem Of.isSome_least (h : Of s ls counts) :
    counts.least.isSome ↔ ∃ l ∈ ls, ∃ node, s.graph.node? l = some node := by
  rw [least, List.isSome_min?_iff]
  constructor
  · intro hne
    rcases List.exists_mem_of_ne_nil _ hne with ⟨c, hc⟩
    rcases mem_values.mp hc with ⟨line, hline⟩
    rcases h.answers line c hline with ⟨l, hl, node, hnode, _⟩
    exact ⟨l, hl, node, hnode⟩
  · intro hin
    rcases hin with ⟨l, hl, node, hnode⟩
    rcases h.exists_value hl hnode with ⟨c, hc⟩
    exact List.ne_nil_of_mem (mem_values.mpr ⟨node.line, hc⟩)

/-- When what a loop answers is positive exactly if its line is busy, the least count is positive
exactly if there are loops and all their lines are busy.  A count that was replaced is not missed:
the one in its place is of a loop of the same line. -/
theorem Of.least_pos (h : Of s ls counts) (busy : SourceLine → Prop)
    (hbusy : ∀ l node, s.graph.node? l = some node → (0 < s.answer l ↔ busy node.line)) :
    counts.least.any (0 < ·) ↔
      (∃ l ∈ ls, ∃ node, s.graph.node? l = some node) ∧
      ∀ l ∈ ls, ∀ node, s.graph.node? l = some node → busy node.line := by
  rw [← h.isSome_least]
  cases hleast : counts.least with
  | none =>
    exact ⟨fun h => absurd h Bool.false_ne_true, fun h => absurd h.1 Bool.false_ne_true⟩
  | some least =>
    rw [HeaderCounts.least, List.min?_eq_some_iff] at hleast
    rcases hleast with ⟨hmem, hle⟩
    rw [Option.any_some, decide_eq_true_iff, Option.isSome_some, eq_self, true_and]
    constructor
    · intro hpos l hl node hnode
      -- the count at the line of `l` may be that of another loop `k`
      rcases h.exists_value hl hnode with ⟨c, hc⟩
      rcases h.answers node.line c hc with ⟨k, _, node', hnode', hline, rfl⟩
      rw [← hline, ← hbusy k node' hnode']
      exact UInt64.lt_of_lt_of_le hpos (hle _ (mem_values.mpr ⟨node.line, hc⟩))
    · intro hall
      rcases mem_values.mp hmem with ⟨line, hline⟩
      rcases h.answers line least hline with ⟨l, hl, node, hnode, _, rfl⟩
      exact (hbusy l node hnode).mpr (hall l hl node hnode)

end HeaderCounts

/-- Where the loops of a line answer alike, it does not matter whose count stands at the line. -/
theorem HeaderCounts.Of.least_eq {s : Session} {ls : List Nat} {counts : HeaderCounts}
    (h : counts.Of s ls) (hnodes : ∀ l ∈ ls, ∃ node, s.graph.node? l = some node)
    (hlines : ∀ l ∈ ls, ∀ k ∈ ls, ∀ node node', s.graph.node? l = some node →
      s.graph.node? k = some node' → node.line = node'.line → s.answer l = s.answer k) :
    counts.least = (ls.map s.answer).min? := by
  refine Count.min?_congr fun c => ?_
  rw [mem_values, List.mem_map]
  constructor
  · intro hin
    rcases hin with ⟨line, hc⟩
    rcases h.answers line c hc with ⟨l, hl, _, _, _, hanswer⟩
    exact ⟨l, hl, hanswer⟩
  · intro hin
    rcases hin with ⟨l, hl, rfl⟩
    rcases hnodes l hl with ⟨node, hnode⟩
    -- another loop may have had the last word on this line, but it counts the same
    rcases h.exists_value hl hnode with ⟨c, hc⟩
    rcases h.answers _ c hc with ⟨k, hk, node', hnode', hline, rfl⟩
    rw [hlines l hl k hk node node' hnode hnode' hline.symm]
    exact ⟨node.line, hc⟩

theorem Detector.minChunkIterations_eq (s : Session) (f : Nat) :
    ∃ counts : HeaderCounts, counts.Of s (s.graph.chunkLoops f) ∧
      (minChunkIterations s f).1 = counts.least ∧ s.Follows (minChunkIterations s f).2 := by
  rcases (HeaderCounts.Of.empty s).foldl (.refl s) (s.graph.chunkLoops f) with ⟨hof, hs⟩
  exact ⟨_, hof, rfl, hs⟩

/-- Chunking loops counted by header line, in whatever order, have the least count that they have
one by one. -/
theorem HeaderCounts.least_foldl {g : Graph} {p : Profile} {config : Config} {s : Session}
    {f : Nat} {ls : List Nat} (hg : g.Sound) (hs : (Session.new g p config).Follows s)
    (hls : ∀ l ∈ ls, g.Chunk f l) :
    least (ls.foldl countHeader (∅, s)).1 = (ls.map ((Estimator.new p).answer g)).min? := by
  have hof : Of s ls (ls.foldl countHeader (∅, s)).1 := ((Of.empty s).foldl (.refl s) ls).1
  have hgraph : s.graph = g := hs.graph
  -- a session that follows the new one answers as if nothing were remembered
  have hanswer : s.answer = (Estimator.new p).answer g := funext hs.answer
  rw [← hanswer]
  refine hof.least_eq (fun l hl => ?_) fun l hl k hk node node' hnode hnode' hline => ?_
  · rw [hgraph]
    exact Graph.exists_node? (Graph.lt_of_isKind (hls l hl).1)
  · rw [hgraph] at hnode hnode'
    rw [hanswer]
    exact Estimator.answer_chunk hg (hls l hl) (hls k hk) hnode hnode' hline

/-- The least count by header line is the least count of all chunking loops. -/
theorem Detector.minChunkIterations_eq_min? {g : Graph} {p : Profile} {config : Config}
    {s : Session} (hg : g.Sound) (hs : (Session.new g p config).Follows s) (f : Nat) :
    (minChunkIterations s f).1 = ((g.chunkLoops f).map ((Estimator.new p).answer g)).min? := by
  have hgraph : s.graph = g := hs.graph
  rw [← HeaderCounts.least_foldl hg hs fun l hl => hg.mem_chunkLoops.mp hl, minChunkIterations,
    hgraph]
  rfl

end UnitGraph
