import Mathlib
import UnitGraph.Count

/-!
# Saturating counts as clamped numbers

Sums and products of counts stop at the largest count.  Worked out on numbers without a bound and
clamped once at the end, they come out the same, however they are nested.
-/

namespace UnitGraph.Count

variable {α : Type}

theorem clamp_toNat (c : Count) : clamp c.toNat = c := by
  have hle : c.toNat ≤ bound - 1 := Nat.le_sub_one_of_lt c.toNat_lt
  rw [← UInt64.toNat_inj, toNat_clamp, Nat.min_eq_left hle]

theorem ofNat?_eq_some {n : Nat} {c : Count} : ofNat? n = some c ↔ n = c.toNat := by
  rw [ofNat?]
  constructor
  · intro h
    split_ifs at h with hn
    rw [← Option.some.inj h, UInt64.toNat_ofNat_of_lt' hn]
  · rintro rfl
    rw [if_pos (show c.toNat < bound from c.toNat_lt_size), UInt64.ofNat_toNat]

theorem add_clamp (a b : Nat) : add (clamp a) (clamp b) = clamp (a + b) := by
  rw [← UInt64.toNat_inj, toNat_add, toNat_clamp, toNat_clamp, toNat_clamp]
  omega

theorem clamp_mono {a b : Nat} (h : a ≤ b) : clamp a ≤ clamp b := by
  rw [UInt64.le_iff_toNat_le, toNat_clamp, toNat_clamp]
  omega

/-- A factor that was cut at a limit reaches it with any other factor but 0. -/
private theorem min_mul_min (a b limit : Nat) :
    min (min a limit * b) limit = min (a * b) limit := by
  by_cases ha : a ≤ limit
  · rw [Nat.min_eq_left ha]
  · rcases Nat.eq_zero_or_pos b with rfl | hb
    · rw [Nat.mul_zero, Nat.mul_zero]
    · -- both products lie over the limit
      have hle : limit ≤ a := by omega
      rw [Nat.min_eq_right hle, Nat.min_eq_right (Nat.le_mul_of_pos_right limit hb),
        Nat.min_eq_right (Nat.le_trans hle (Nat.le_mul_of_pos_right a hb))]

theorem mul_clamp (a b : Nat) : mul (clamp a) (clamp b) = clamp (a * b) := by
  rw [← UInt64.toNat_inj, toNat_mul, toNat_clamp, toNat_clamp, toNat_clamp, min_mul_min,
    Nat.mul_comm a, min_mul_min, Nat.mul_comm b]

theorem foldl_add_clamp (w : α → Nat) (a : Nat) (l : List α) :
    (l.map fun x => clamp (w x)).foldl add (clamp a) = clamp (a + (l.map w).sum) := by
  induction l generalizing a with
  | nil => rfl
  | cons x l ih =>
    rw [List.map_cons, List.foldl_cons, add_clamp, ih, List.map_cons, List.sum_cons, Nat.add_assoc]

/-- However often a sum of clamped numbers stops at the bound, it is the clamped sum. -/
theorem sum_clamp (w : α → Nat) (l : List α) :
    sum (l.map fun x => clamp (w x)) = clamp (l.map w).sum := by
  have h := foldl_add_clamp w 0 l
  rw [Nat.zero_add] at h
  exact h

/-! ## Sums and least counts of lists -/

theorem sum_eq_clamp (l : List Count) : sum l = clamp (l.map UInt64.toNat).sum := by
  have h := sum_clamp UInt64.toNat l
  simp only [clamp_toNat, List.map_id'] at h
  exact h

theorem sum_append (l l' : List Count) : sum (l ++ l') = add (sum l) (sum l') := by
  rw [sum_eq_clamp, sum_eq_clamp, sum_eq_clamp, add_clamp, List.map_append, List.sum_append]

theorem sum_cons (c : Count) (l : List Count) : sum (c :: l) = add c (sum l) := by
  rw [sum_eq_clamp, sum_eq_clamp, List.map_cons, List.sum_cons, ← add_clamp, clamp_toNat]

theorem sum_flatMap (f : α → List Count) (l : List α) :
    sum (l.flatMap f) = sum (l.map fun x => sum (f x)) := by
  induction l with
  | nil => rfl
  | cons x l ih => rw [List.flatMap_cons, sum_append, ih, List.map_cons, sum_cons]

theorem zero_add (c : Count) : add 0 c = c :=
  (congrArg clamp (Nat.zero_add c.toNat)).trans (clamp_toNat c)

theorem sum_perm {l l' : List Count} (h : l.Perm l') : sum l = sum l' := by
  rw [sum_eq_clamp, sum_eq_clamp, (h.map UInt64.toNat).sum_eq]

theorem min?_congr {l l' : List Count} (h : ∀ c, c ∈ l ↔ c ∈ l') : l.min? = l'.min? := by
  refine Option.ext fun c => ?_
  simp only [List.min?_eq_some_iff, h]

end UnitGraph.Count
