import Mathlib.Data.List.Perm.Subperm
import Mathlib.Data.Nat.Init
import Mathlib.Logic.Relation
import UnitGraph.Graph.Basic

/-!
# Climbing in a forest

A partial step to a parent makes a forest of the points below a bound when no climb comes back to
a point it has left.  In a forest a climb that may meet as many points as there are is never cut,
any two points above a third lie one above the other, and every point has exactly one root.
-/

namespace UnitGraph

abbrev Climbs (step : Nat → Option Nat) : Nat → Nat → Prop :=
  Relation.ReflTransGen fun a b => step a = some b

/-- The points below `size` with the step to the parent. Some rank falls with every step. -/
structure Forest (size : Nat) (parent : Nat → Option Nat) : Prop where
  below : ∀ c p, parent c = some p → c < size ∧ p < size
  ranked : ∃ rank : Nat → Nat, ∀ c p, parent c = some p → rank p < rank c

/-! ## Climbs of any step -/

section Climb

variable {step : Nat → Option Nat} {n m a b : Nat}

theorem climb_succ_none (limit : Nat) (h : step n = none) : climb step (limit + 1) n = [n] := by
  rw [climb, h]

theorem climb_succ_some (limit : Nat) (h : step n = some m) :
    climb step (limit + 1) n = n :: climb step limit m := by
  rw [climb, h]

theorem climb_eq_take (limit more n : Nat) :
    climb step limit n = (climb step (limit + more) n).take limit := by
  induction limit generalizing n with
  | zero => rw [List.take_zero, climb]
  | succ limit ih =>
    rw [show limit + 1 + more = limit + more + 1 by omega]
    cases h : step n with
    | none => rw [climb_succ_none _ h, climb_succ_none _ h, List.take_succ_cons, List.take_nil]
    | some m => rw [climb_succ_some _ h, climb_succ_some _ h, List.take_succ_cons, ← ih]

theorem climbs_of_mem_climb {limit : Nat} (h : m ∈ climb step limit n) : Climbs step n m := by
  induction limit generalizing n with
  | zero => exact absurd h List.not_mem_nil
  | succ limit ih =>
    cases hs : step n with
    | none =>
      rw [climb_succ_none _ hs, List.mem_singleton] at h
      rw [h]
    | some p =>
      rw [climb_succ_some _ hs] at h
      rcases List.mem_cons.mp h with rfl | h
      · exact .refl
      · exact .head hs (ih h)

theorem Climbs.exists_mem_climb (h : Climbs step n m) : ∃ limit, m ∈ climb step limit n := by
  induction h using Relation.ReflTransGen.head_induction_on with
  | refl => exact ⟨1, by rw [climb]; exact List.mem_cons_self⟩
  | head hs _ ih =>
    rcases ih with ⟨limit, hm⟩
    exact ⟨limit + 1, by rw [climb_succ_some _ hs]; exact List.mem_cons_of_mem _ hm⟩

/-- A step is a function, so the points above a point form a line. -/
theorem Climbs.total (ha : Climbs step n a) (hb : Climbs step n b) :
    Climbs step a b ∨ Climbs step b a :=
  Relation.ReflTransGen.total_of_right_unique
    (fun _ _ _ h h' => Option.some.inj (h.symm.trans h')) ha hb

theorem Climbs.eq_of_none (h : Climbs step n m) (hn : step n = none) : n = m := by
  rcases h.cases_head with h | ⟨p, hp, _⟩
  · exact h
  · rw [hn] at hp
    exact absurd hp (Option.some_ne_none _).symm

theorem Climbs.cases_some (h : Climbs step n m) (hn : step n = some a) :
    n = m ∨ Climbs step a m := by
  rcases h.cases_head with h | ⟨p, hp, hm⟩
  · exact Or.inl h
  · rw [Option.some.inj (hn.symm.trans hp)]
    exact Or.inr hm

end Climb

/-! ## Climbs in a forest -/

namespace Forest

variable {size : Nat} {parent : Nat → Option Nat} {n m c p a b : Nat}

theorem lt_of_climbs (h : Forest size parent) (hc : Climbs parent n m) (hn : n < size) :
    m < size := by
  rcases hc.cases_tail with rfl | ⟨p, _, hp⟩
  · exact hn
  · exact (h.below p m hp).2

theorem lt_of_climbs_of_lt (h : Forest size parent) (hc : Climbs parent n m) (hm : m < size) :
    n < size := by
  rcases hc.cases_head with rfl | ⟨p, hp, _⟩
  · exact hm
  · exact (h.below n p hp).1

theorem not_climbs_back (h : Forest size parent) (hp : parent c = some p) :
    ¬ Climbs parent p c := by
  rcases h.ranked with ⟨rank, hrank⟩
  -- no climb lifts the rank, and coming back to `c` would
  have hle : ∀ a b, Climbs parent a b → rank b ≤ rank a := by
    intro a b hab
    induction hab with
    | refl => exact Nat.le_refl _
    | tail _ hs ih => exact Nat.le_trans (Nat.le_of_lt (hrank _ _ hs)) ih
  intro hback
  have hlt := hrank c p hp
  have hge := hle p c hback
  omega

/-- No climb comes back to a point, however long it goes on. -/
theorem nodup_climb (h : Forest size parent) (limit n : Nat) : (climb parent limit n).Nodup := by
  induction limit generalizing n with
  | zero => exact List.nodup_nil
  | succ limit ih =>
    cases hp : parent n with
    | none =>
      rw [climb_succ_none _ hp]
      exact List.nodup_cons.mpr ⟨List.not_mem_nil, List.nodup_nil⟩
    | some p =>
      rw [climb_succ_some _ hp, List.nodup_cons]
      exact ⟨fun hn => h.not_climbs_back hp (climbs_of_mem_climb hn), ih p⟩

theorem length_climb_le (h : Forest size parent) (limit : Nat) (hn : n < size) :
    (climb parent limit n).length ≤ size := by
  have hsub : climb parent limit n ⊆ List.range size := fun m hm =>
    List.mem_range.mpr (h.lt_of_climbs (climbs_of_mem_climb hm) hn)
  have hle := ((h.nodup_climb limit n).subperm hsub).length_le
  rwa [List.length_range] at hle

/-- A climb of at most `size` points is not cut. -/
theorem climb_add (h : Forest size parent) (more : Nat) (hn : n < size) :
    climb parent (size + more) n = climb parent size n := by
  rw [climb_eq_take size more n, List.take_of_length_le (h.length_climb_le _ hn)]

theorem climb_eq_cons (h : Forest size parent) (hp : parent c = some p) :
    climb parent size c = c :: climb parent size p := by
  rw [← h.climb_add 1 (h.below c p hp).1, climb_succ_some _ hp]

/-- What is left of `size` points after the climb from a point. -/
def room (size : Nat) (parent : Nat → Option Nat) (n : Nat) : Nat :=
  size - (climb parent size n).length

theorem room_lt (h : Forest size parent) (hp : parent c = some p) :
    room size parent c < room size parent p := by
  have hle := h.length_climb_le size (h.below c p hp).1
  rw [room, room]
  rw [h.climb_eq_cons hp, List.length_cons] at hle ⊢
  omega

theorem room_lt_size (hn : n < size) : room size parent n < size := by
  have hpos : 0 < (climb parent size n).length := by
    rw [show size = size - 1 + 1 by omega, climb]
    exact Nat.succ_pos _
  rw [room]
  omega

theorem mem_climb (h : Forest size parent) (hn : n < size) :
    m ∈ climb parent size n ↔ Climbs parent n m := by
  refine ⟨climbs_of_mem_climb, fun hm => ?_⟩
  -- a climb long enough to meet `m` is longer than the one that is cut at `size`, or its beginning
  rcases hm.exists_mem_climb with ⟨limit, hm⟩
  rw [← h.climb_add limit hn]
  rw [climb_eq_take limit size, Nat.add_comm] at hm
  exact List.mem_of_mem_take hm

/-- Every point has exactly one root. -/
theorem existsUnique_root (h : Forest size parent) (n : Nat) :
    ∃! r, parent r = none ∧ Climbs parent n r := by
  rcases h.ranked with ⟨rank, hrank⟩
  have hex : ∀ k n, rank n = k → ∃ r, parent r = none ∧ Climbs parent n r := by
    intro k
    -- strong induction on the rank: that of the parent is smaller, by how much is unknown
    induction k using Nat.strong_induction_on with
    | h k ih =>
      intro n hk
      cases hp : parent n with
      | none => exact ⟨n, hp, .refl⟩
      | some p =>
        rcases ih (rank p) (by rw [← hk]; exact hrank n p hp) p rfl with ⟨r, hr, hc⟩
        exact ⟨r, hr, .head hp hc⟩
  rcases hex (rank n) n rfl with ⟨r, hr, hc⟩
  refine ⟨r, ⟨hr, hc⟩, fun s ⟨hs, hcs⟩ => ?_⟩
  rcases hc.total hcs with h' | h'
  · exact (h'.eq_of_none hr).symm
  · exact h'.eq_of_none hs

theorem wellFounded_parent (h : Forest size parent) :
    WellFounded fun p c => parent c = some p := by
  obtain ⟨rank, hrank⟩ := h.ranked
  exact Subrelation.wf (fun {p c} hp => hrank c p hp) (measure rank).wf

/-! ## Growing a forest -/

theorem empty : Forest 0 (fun _ => none) :=
  ⟨fun _ _ h => absurd h (Option.some_ne_none _).symm, fun _ => 0,
    fun _ _ h => absurd h (Option.some_ne_none _).symm⟩

theorem mono {size' : Nat} (h : Forest size parent) (hle : size ≤ size') : Forest size' parent :=
  ⟨fun c p hp => ⟨Nat.lt_of_lt_of_le (h.below c p hp).1 hle,
    Nat.lt_of_lt_of_le (h.below c p hp).2 hle⟩, h.ranked⟩

/-- A point may be attached to any point that it is not above. -/
theorem attach (h : Forest size parent) (hp : p < size) (hc : c < size)
    (hnot : ¬ Climbs parent p c) :
    Forest size fun n => if n = c then some p else parent n := by
  classical
  rcases h.ranked with ⟨rank, hrank⟩
  refine ⟨fun n m hnm => ?_, fun n => if Climbs parent n c then rank n + rank p + 1 else rank n,
    fun n m hnm => ?_⟩
  · by_cases hn : n = c
    · rw [if_pos hn] at hnm
      rw [hn, ← Option.some.inj hnm]
      exact ⟨hc, hp⟩
    · rw [if_neg hn] at hnm
      exact h.below n m hnm
  · -- the points under `c` are lifted over the rank of the new parent
    beta_reduce
    by_cases hn : n = c
    · rw [if_pos hn] at hnm
      -- the new edge: the child has been lifted, the parent is not under it
      rw [← Option.some.inj hnm, hn, if_neg hnot, if_pos .refl]
      omega
    · rw [if_neg hn] at hnm
      have hlt := hrank n m hnm
      -- an old edge: both its points have been lifted, or neither
      by_cases hm : Climbs parent m c
      · rw [if_pos hm, if_pos (.head hnm hm)]
        omega
      · have hnc : ¬ Climbs parent n c := by
          intro hnc
          rcases hnc.cases_some hnm with h' | h'
          · exact hn h'
          · exact hm h'
        rw [if_neg hm, if_neg hnc]
        exact hlt

end Forest

/-! ## Walks without a limit -/

/-- The points met by a walk that goes on until there is no next point or until it has met a point
that stops it. -/
inductive Passes (stops : Nat → Prop) (step : Nat → Option Nat) : Option Nat → List Nat → Prop
  | gone : Passes stops step none []
  | stop {n : Nat} : stops n → Passes stops step (some n) [n]
  | pass {n : Nat} {l : List Nat} :
      ¬stops n → Passes stops step (step n) l → Passes stops step (some n) (n :: l)

namespace Passes

variable {stops : Nat → Prop} {step : Nat → Option Nat} {start : Option Nat} {l k : List Nat}
  {n m : Nat}

theorem unique (h : Passes stops step start l) (h' : Passes stops step start k) : l = k := by
  induction h generalizing k with
  | gone =>
    cases h'
    rfl
  | stop hn =>
    cases h' with
    | stop => rfl
    | pass hn' => exact absurd hn hn'
  | pass hn _ ih =>
    cases h' with
    | stop hn' => exact absurd hn' hn
    | pass _ h' => rw [ih h']

/-- A walk is the climb of as many points. -/
theorem eq_climb (h : Passes stops step (some n) l) : l = climb step l.length n := by
  -- induction on the walk needs a start that is a variable
  generalize hstart : some n = start at h
  induction h generalizing n with
  | gone => cases hstart
  | @stop a _ =>
    cases hstart
    show [a] = climb step (0 + 1) a
    cases hs : step a with
    | none => rw [climb_succ_none _ hs]
    | some m => rw [climb_succ_some _ hs, climb]
  | @pass a l _ hl ih =>
    cases hstart
    rw [List.length_cons]
    cases hs : step a with
    | none =>
      rw [hs] at hl
      cases hl
      rw [climb_succ_none _ hs]
    | some m => rw [climb_succ_some _ hs, ← ih hs.symm]

/-- A walk that one point stops meets the point if it lies on the way up. -/
theorem mem_iff (h : Passes (· = m) step (some n) l) : m ∈ l ↔ Climbs step n m := by
  refine ⟨fun hm => climbs_of_mem_climb (h.eq_climb ▸ hm), fun hc => ?_⟩
  generalize hstart : some n = start at h
  induction h generalizing n with
  | gone => cases hstart
  | stop hn => exact hn ▸ List.mem_cons_self
  | @pass a _ ha _ ih =>
    cases hstart
    rcases hc.cases_head with hc | ⟨p, hp, hc⟩
    · exact absurd hc ha
    · exact List.mem_cons_of_mem a (ih hc hp.symm)

end Passes

namespace Forest

variable {size : Nat} {parent : Nat → Option Nat} {stops : Nat → Prop} {start : Option Nat}
  {l : List Nat} {n : Nat}

/-- In a forest every walk ends. -/
theorem exists_passes (h : Forest size parent) (stops : Nat → Prop) (start : Option Nat) :
    ∃ l, Passes stops parent start l := by
  have hpoint : ∀ n, ∃ l, Passes stops parent (some n) l := by
    intro n
    -- from the roots down: the walk from the parent is there already
    induction n using h.wellFounded_parent.induction with
    | h n ih =>
      by_cases hn : stops n
      · exact ⟨[n], .stop hn⟩
      · cases hp : parent n with
        | none => exact ⟨[n], .pass hn (hp ▸ .gone)⟩
        | some p =>
          obtain ⟨l, hl⟩ := ih p hp
          exact ⟨n :: l, .pass hn (hp ▸ hl)⟩
  cases start with
  | none => exact ⟨[], .gone⟩
  | some n => exact hpoint n

theorem nodup_passes (h : Forest size parent) (hl : Passes stops parent (some n) l) :
    l.Nodup := by
  rw [hl.eq_climb]
  exact h.nodup_climb l.length n

theorem length_passes_le (h : Forest size parent) (hn : n < size)
    (hl : Passes stops parent (some n) l) : l.length ≤ size := by
  rw [hl.eq_climb]
  exact h.length_climb_le l.length hn

end Forest

end UnitGraph
