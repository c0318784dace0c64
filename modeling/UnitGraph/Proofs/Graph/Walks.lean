import UnitGraph.Proofs.Graph.Indexing

/-!
# Walks over a built graph

The walks up the parents have no measure of their own: that they end is the forest that the walk of
every attachment has kept.  The walk down a tree does what is pending until nothing is.  It pushes
and does one visit to enter and one to leave every node of the tree, and meets no node twice.
-/

namespace UnitGraph

/-! ## Up the parents -/

/-- The points met going up from a new parent, the child the last one if it is met. -/
abbrev Builder.Ascends (b : Builder) (parent child : Nat) (l : List Nat) : Prop :=
  Passes (· = child) (b.parents[·]?) (some parent) l

/-- The points met going up from a node, a loop the last one if one is met. -/
abbrev Graph.Ascends (g : Graph) (n : Nat) (l : List Nat) : Prop :=
  Passes (g.isKind · .loop) g.parent? (g.parent? n) l

/-- From a new parent one walk goes up, past no node twice.  It meets the child where the child is
above. -/
theorem Builder.Sound.ascends {b : Builder} {p : Nat} (hb : b.Sound)
    (hp : p < b.graph.nodes.size) (c : Nat) :
    ∃ l, (∀ k, b.Ascends p c k ↔ k = l) ∧ l.Nodup ∧ l.length ≤ b.graph.nodes.size ∧
      (c ∈ l ↔ c ∈ b.lineage p) := by
  have hf := hb.graph.forest
  have hparents : (fun x => b.parents[x]?) = b.graph.parent? := funext hb.parents
  obtain ⟨l, hl⟩ := hf.exists_passes (· = c) (some p)
  have hascends : b.Ascends p c l := by rw [Builder.Ascends, hparents]; exact hl
  refine ⟨l, fun k => ⟨fun hk => hk.unique hascends, fun hk => hk ▸ hascends⟩,
    hf.nodup_passes hl, hf.length_passes_le hp hl, ?_⟩
  rw [hb.lineage, hf.mem_climb hp]
  exact hl.mem_iff

namespace Graph

variable {g : Graph} {n : Nat} {l : List Nat}

theorem Sound.find?_ascends (hg : g.Sound) (hl : g.Ascends n l) :
    l.find? (g.isKind · .loop) = g.enclosingLoop? n := by
  rw [Ascends] at hl
  generalize hstart : g.parent? n = start at hl
  induction hl generalizing n with
  | gone => rw [enclosingLoop?, ancestors, hstart]
  | @stop p hp =>
    rw [hg.enclosingLoop?_of_parent hstart, if_pos hp]
    exact List.find?_cons_of_pos hp
  | @pass p l hp _ ih =>
    rw [hg.enclosingLoop?_of_parent hstart, if_neg hp, ← ih rfl]
    exact List.find?_cons_of_neg hp

/-- From a node one walk goes up, past no node twice and not back to the node.  The loop that it
meets is the enclosing one. -/
theorem Sound.ascends (hg : g.Sound) (n : Nat) :
    ∃ l, (∀ k, g.Ascends n k ↔ k = l) ∧ (n :: l).Nodup ∧ l.length ≤ g.nodes.size ∧
      l.find? (g.isKind · .loop) = g.enclosingLoop? n := by
  obtain ⟨l, hl⟩ := hg.forest.exists_passes (g.isKind · .loop) (g.parent? n)
  have hunique : ∀ k, g.Ascends n k ↔ k = l := fun k => ⟨fun hk => hk.unique hl, fun hk => hk ▸ hl⟩
  have hfind := hg.find?_ascends hl
  cases hp : g.parent? n with
  | none =>
    rw [hp] at hl
    cases hl
    exact ⟨[], hunique, List.nodup_singleton n, Nat.zero_le _, hfind⟩
  | some p =>
    rw [hp] at hl
    refine ⟨l, hunique, ?_, hg.forest.length_passes_le (hg.forest.below n p hp).2 hl, hfind⟩
    -- the node and the walk from its parent are a climb from the node
    rw [hl.eq_climb, ← climb_succ_some _ hp]
    exact hg.forest.nodup_climb _ n

end Graph

/-! ## Down the trees -/

namespace SubtreeIndex

variable {g : Graph} {ix ix' : SubtreeIndex} {v : Visit} {pending tour : List Visit}

def pushed (g : Graph) : Visit → List Visit
  | .enter n => (g.children n).map .enter ++ [.leave n]
  | .leave _ => []

theorem Due.visit_snd (h : ix.Due v) : (ix.visit g v).2 = pushed g v := by
  cases v with
  | enter n => rw [visit_enter h, pushed]
  | leave n =>
    rw [visit]
    split <;> rfl

/-- What is done has been pending at the start or has been added on the way, and nothing else has:
every visit that is pushed is done once. -/
theorem Visits.perm (h : Visits g pending ix tour ix') :
    tour.Perm (pending ++ tour.flatMap (pushed g)) := by
  induction h with
  | nil => exact .refl _
  | @cons v pending tour ix ix' hdue _ ih =>
    rw [hdue.visit_snd] at ih
    refine List.perm_iff_count.mpr fun a => ?_
    have hcount := ih.count_eq a
    simp only [List.flatMap_cons, List.cons_append, List.count_cons, List.count_append]
      at hcount ⊢
    omega

theorem Sweeps.perm {ns : List Nat} {tours : List (List Visit)} (h : Sweeps g ns ix tours ix') :
    List.Forall₂ (fun r tour => tour.Perm (.enter r :: tour.flatMap (pushed g))) ns tours := by
  induction h with
  | nil => exact .nil
  | cons hvisits _ ih => exact .cons hvisits.perm ih

end SubtreeIndex

end UnitGraph
