import UnitGraph.Proofs.Analysis.Iterations
import UnitGraph.Proofs.Graph.Building

/-!
# Iterations of one invocation

A measured count covers every invocation of a loop.  The count of one invocation is the quotient by
what the nearest loop around was measured to run, which is taken as at least 1; a loop that ran less
often than the one around it keeps its count.  The nearest loop is found by going up the parents,
past any nodes of other kinds.
-/

namespace UnitGraph

/-! ## The nearest loop around -/

namespace Graph

variable {g : Graph} {n m p l : Nat}

def Inside (g : Graph) (n m : Nat) : Prop :=
  Relation.TransGen (fun a b => g.parent? a = some b) n m

structure NearestLoop (g : Graph) (n l : Nat) : Prop where
  loop : g.isKind l .loop
  around : g.Inside n l
  nearest : ∀ m, g.isKind m .loop → g.Inside n m → ¬g.Inside m l

theorem inside_iff : g.Inside n m ↔ ∃ p, g.parent? n = some p ∧ Climbs g.parent? p m :=
  Relation.TransGen.head'_iff

theorem not_inside_of_root (hn : g.parent? n = none) : ¬g.Inside n m := by
  intro h
  obtain ⟨p, hp, _⟩ := inside_iff.mp h
  rw [hn] at hp
  cases hp

theorem inside_of_parent (hp : g.parent? n = some p) : g.Inside n m ↔ m = p ∨ g.Inside p m := by
  constructor
  · intro h
    obtain ⟨q, hq, hc⟩ := inside_iff.mp h
    rw [hp] at hq
    cases hq
    exact Relation.reflTransGen_iff_eq_or_transGen.mp hc
  · intro h
    cases h with
    | inl h => rw [h]; exact .single hp
    | inr h => exact .head hp h

theorem Sound.not_inside_self (hg : g.Sound) : ¬g.Inside n n := by
  intro h
  obtain ⟨p, hp, hc⟩ := inside_iff.mp h
  exact hg.forest.not_climbs_back hp hc

/-- The parent is the nearest loop if it is one; otherwise the two have the same nearest loop. -/
theorem Sound.nearestLoop_of_parent (hg : g.Sound) (hp : g.parent? n = some p) :
    g.NearestLoop n l ↔ if g.isKind p .loop then l = p else g.NearestLoop p l := by
  by_cases hloop : g.isKind p .loop
  · rw [if_pos hloop]
    constructor
    · intro h
      apply ((inside_of_parent hp).mp h.around).resolve_right
      exact h.nearest p hloop (.single hp)
    · rintro rfl
      refine ⟨hloop, .single hp, fun m _ hm hml => ?_⟩
      -- a node between the two would lie on a cycle
      cases (inside_of_parent hp).mp hm with
      | inl h => exact hg.not_inside_self (h ▸ hml)
      | inr h => exact hg.not_inside_self (h.trans hml)
  · rw [if_neg hloop]
    have hne : ∀ {k}, g.isKind k .loop → k ≠ p := fun hk h => hloop (h ▸ hk)
    constructor
    · intro h
      have haround := ((inside_of_parent hp).mp h.around).resolve_left (hne h.loop)
      exact ⟨h.loop, haround, fun m hm hpm => h.nearest m hm (.head hp hpm)⟩
    · intro h
      refine ⟨h.loop, .head hp h.around, fun m hm hnm => ?_⟩
      exact h.nearest m hm (((inside_of_parent hp).mp hnm).resolve_left (hne hm))

/-- The search up the parents finds the nearest loop around a node, whatever lies between. -/
theorem Sound.enclosingLoop?_eq_some (hg : g.Sound) :
    g.enclosingLoop? n = some l ↔ g.NearestLoop n l := by
  -- the induction goes down from the root: what holds of the parent is known
  induction n using hg.forest.wellFounded_parent.induction with
  | h n ih =>
    cases hp : g.parent? n with
    | none =>
      have hnone : g.enclosingLoop? n = none := by rw [enclosingLoop?, ancestors, hp]; rfl
      rw [hnone]
      apply iff_of_false (Option.some_ne_none l).symm
      intro h
      exact not_inside_of_root hp h.around
    | some p =>
      rw [hg.enclosingLoop?_of_parent hp, hg.nearestLoop_of_parent hp]
      by_cases hloop : g.isKind p .loop
      · rw [if_pos hloop, if_pos hloop, Option.some.injEq, eq_comm]
      · rw [if_neg hloop, if_neg hloop]
        exact ih p hp

theorem Sound.enclosingLoop?_eq_none (hg : g.Sound) :
    g.enclosingLoop? n = none ↔ ∀ l, g.isKind l .loop → ¬g.Inside n l := by
  rw [enclosingLoop?, List.find?_eq_none]
  apply forall_congr'
  intro l
  rw [hg.mem_ancestors, ← inside_iff]
  exact imp_not_comm

end Graph

/-! ## Measured counts -/

namespace Profile

def measured (p : Profile) (g : Graph) (n : Nat) : Nat :=
  (((g.node? n).bind fun node => p.get? node.line).getD 0).toNat

/-- The count that the one of a node is divided by: that of the nearest loop around, but at least
1, and 1 where no loop is around. -/
inductive Around (p : Profile) (g : Graph) (n : Nat) : Nat → Prop
  | alone : (∀ l, g.isKind l .loop → ¬g.Inside n l) → Around p g n 1
  | loop {l : Nat} : g.NearestLoop n l → Around p g n (max 1 (p.measured g l))

end Profile

namespace Estimator

variable {g : Graph} {p : Profile} {e : Estimator} {n P : Nat}

theorem toNat_raw (p : Profile) (g : Graph) (n : Nat) :
    ((new p).raw g n).toNat = p.measured g n := by
  rw [raw, Profile.measured]
  cases g.node? n <;> rfl

/-- The estimator divides by the count around. -/
theorem around_iff (hg : g.Sound) (p : Profile) (n : Nat) :
    p.Around g n P ↔ P = ((new p).parent g n).toNat := by
  rw [parent]
  -- without a loop around it a node runs once, which is also the least that a loop counts for
  cases hl : g.enclosingLoop? n with
  | none =>
    show _ ↔ P = 1
    have hnone := hg.enclosingLoop?_eq_none.mp hl
    constructor
    · intro h
      cases h with
      | alone => rfl
      | loop h => exact absurd h.around (hnone _ h.loop)
    · rintro rfl
      exact .alone hnone
  | some l =>
    rw [Option.elim_some, UInt64.toNat_max, toNat_raw, Nat.max_comm]
    show _ ↔ P = max 1 (p.measured g l)
    have hnear := hg.enclosingLoop?_eq_some.mp hl
    constructor
    · intro h
      cases h with
      | alone h => exact absurd hnear.around (h l hnear.loop)
      | loop h =>
        rw [← hg.enclosingLoop?_eq_some, hl] at h
        cases h
        rfl
    · rintro rfl
      exact .loop hnear

/-! ## Answers -/

def afterAnswers (e : Estimator) (g : Graph) (ns : List Nat) : Estimator :=
  ns.foldl (fun e n => (e.effective g n).2) e

theorem agree_afterAnswers (e : Estimator) (g : Graph) (ns : List Nat) :
    Agree g e (e.afterAnswers g ns) := by
  induction ns generalizing e with
  | nil => exact .refl e
  | cons n ns ih => exact (agree_effective g e n).trans (ih _)

/-- Every node has one count around it.  Whatever an estimator has answered before, its answer for a
node is what one invocation has of the measured count.  So it is at most the measured count, it is 0
only where that is 0, and it is the measured count itself where no loop is around.  The count around
is never 0, and where it does not exceed the measured count that one is not 0 either. -/
theorem effective_perInvocation (calls : List Builder.Call) (p : Profile) (asked : List Nat)
    (n : Nat) :
    let g := Graph.ofCalls calls
    let raw := p.measured g n
    let count := (((new p).afterAnswers g asked).effective g n).1.toNat
    (∃! around, p.Around g n around) ∧
    (∀ around, p.Around g n around → PerInvocation raw around count) ∧
    count ≤ raw ∧ (count = 0 ↔ raw = 0) ∧
    ((∀ l, g.isKind l .loop → ¬g.Inside n l) → count = raw) ∧
    (new p).parent g n ≠ 0 ∧
    (¬(new p).raw g n < (new p).parent g n →
      ¬((new p).raw g n = 0 ∨ (new p).parent g n = 0)) := by
  intro g raw count
  have hg : g.Sound := Graph.sound_ofCalls calls
  have hone : 1 ≤ (new p).parent g n := one_le_parent _ g n
  have hpos : 0 < ((new p).parent g n).toNat := UInt64.le_iff_toNat_le.mp hone
  have hcount : PerInvocation raw ((new p).parent g n).toNat count := by
    -- earlier answers are remembered, but none of them changes this one
    have hanswer : count = (perInvocation ((new p).raw g n) ((new p).parent g n)).toNat := by
      rw [← answer_new, ← agree_afterAnswers (new p) g asked n]
      rfl
    have hraw : raw = ((new p).raw g n).toNat := (toNat_raw p g n).symm
    rw [hanswer, hraw]
    exact perInvocation_spec hone
  refine ⟨?_, fun around h => ?_, hcount.le hpos, hcount.eq_zero_iff hpos, fun h => ?_, ?_, ?_⟩
  · simp only [around_iff hg, existsUnique_eq]
  · rw [(around_iff hg p n).mp h]
    exact hcount
  · -- nothing divides the count of a node outside all loops
    rw [← (around_iff hg p n).mp (.alone h)] at hcount
    exact hcount.eq_of_one
  · intro hzero
    rw [hzero] at hpos
    exact absurd hpos (Nat.lt_irrefl 0)
  · exact perInvocation_ne_zero hone

end Estimator

end UnitGraph
