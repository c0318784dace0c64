import UnitGraph.Analysis.Iterations
import UnitGraph.Analysis.Session

/-!
# Asking for iterations changes no answer

An estimator remembers what it has answered.  Two estimators agree on a graph when they answer alike
for every node; asking an estimator gives one that agrees with it.  What a new estimator answers
is the count of one invocation, and that is positive whenever the measured count is.
-/

namespace UnitGraph

namespace Estimator

variable {g : Graph} {e e' e'' : Estimator} {n m : Nat}

def answer (e : Estimator) (g : Graph) (n : Nat) : Count :=
  (e.effective g n).1

def Agree (g : Graph) (e e' : Estimator) : Prop :=
  ∀ n, e'.answer g n = e.answer g n

theorem Agree.refl (e : Estimator) : Agree g e e := fun _ => rfl

theorem Agree.trans (h : Agree g e e') (h' : Agree g e' e'') : Agree g e e'' :=
  fun n => (h' n).trans (h n)

theorem answer_of_memo {known : Count} (h : e.memo[n]? = some known) : e.answer g n = known := by
  rw [answer, effective, h]

theorem answer_of_none (h : e.memo[n]? = none) :
    e.answer g n = perInvocation (e.raw g n) (e.parent g n) := by
  rw [answer, effective, h]

def note (e : Estimator) (n : Nat) (count : Count) : Estimator :=
  { e with memo := e.memo.insert n count }

theorem effective_of_none (h : e.memo[n]? = none) :
    e.effective g n = (e.answer g n, e.note n (e.answer g n)) := by
  rw [answer_of_none h, effective, h]
  rfl

/-- Noting the answer that an estimator gives anyway changes none of its answers. -/
theorem agree_note (g : Graph) (e : Estimator) (n : Nat) :
    Agree g e (e.note n (e.answer g n)) := by
  intro m
  -- only the answer for `n` is new in the memo, and it is the one that was due anyway
  have hmemo : (e.note n (e.answer g n)).memo[m]? =
      if n == m then some (e.answer g n) else e.memo[m]? :=
    Std.ExtHashMap.getElem?_insert
  by_cases hnm : n = m
  · rw [if_pos (beq_iff_eq.mpr hnm)] at hmemo
    rw [answer_of_memo hmemo, hnm]
  · rw [if_neg (fun h => hnm (beq_iff_eq.mp h))] at hmemo
    cases hm : e.memo[m]? with
    | some known => rw [answer_of_memo hm, answer_of_memo (hmemo.trans hm)]
    | none =>
      rw [answer_of_none hm, answer_of_none (hmemo.trans hm)]
      rfl

theorem agree_effective (g : Graph) (e : Estimator) (n : Nat) : Agree g e (e.effective g n).2 := by
  cases h : e.memo[n]? with
  | some known =>
    rw [effective, h]
    exact .refl e
  | none =>
    rw [effective_of_none h]
    exact agree_note g e n

theorem answer_new (p : Profile) (g : Graph) (n : Nat) :
    (new p).answer g n = perInvocation ((new p).raw g n) ((new p).parent g n) :=
  answer_of_none Std.ExtHashMap.getElem?_empty

/-! ## One invocation -/

theorem one_le_parent (e : Estimator) (g : Graph) (n : Nat) : 1 ≤ e.parent g n := by
  rw [parent]
  cases g.enclosingLoop? n with
  | none => exact UInt64.le_refl 1
  | some loop =>
    show 1 ≤ if e.raw g loop ≤ 1 then 1 else e.raw g loop
    split
    · exact UInt64.le_refl 1
    · rename_i h
      exact UInt64.le_of_lt (UInt64.not_le.mp h)

/-- `count` is what one invocation has of `raw` iterations when the loop around has `around`: all of
them if there are fewer than that, and otherwise as many as go `around` times into `raw`. -/
structure PerInvocation (raw around count : Nat) : Prop where
  few : raw < around → count = raw
  lower : around ≤ raw → count * around ≤ raw
  upper : around ≤ raw → raw < (count + 1) * around

namespace PerInvocation

variable {raw around count : Nat}

theorem le (h : PerInvocation raw around count) (hpos : 0 < around) : count ≤ raw := by
  by_cases hlt : raw < around
  · exact Nat.le_of_eq (h.few hlt)
  · exact Nat.le_trans (Nat.le_mul_of_pos_right count hpos) (h.lower (by omega))

theorem eq_zero_iff (h : PerInvocation raw around count) (hpos : 0 < around) :
    count = 0 ↔ raw = 0 := by
  by_cases hlt : raw < around
  · rw [h.few hlt]
  · -- a quotient of 0 would leave `raw` below `around`
    have hupper := h.upper (by omega)
    apply iff_of_false _ (by omega)
    rintro rfl
    omega

theorem eq_of_one (h : PerInvocation raw 1 count) : count = raw := by
  by_cases hlt : raw < 1
  · exact h.few hlt
  · have hlower := h.lower (by omega)
    have hupper := h.upper (by omega)
    omega

end PerInvocation

/-- Where the count around is not 0, the counts that are to be divided are both not 0. -/
theorem perInvocation_ne_zero {raw parent : Count} (hp : 1 ≤ parent) (hle : ¬raw < parent) :
    ¬(raw = 0 ∨ parent = 0) := by
  rw [UInt64.lt_iff_toNat_lt] at hle
  rw [UInt64.le_iff_toNat_le] at hp
  rw [← UInt64.toNat_inj, ← UInt64.toNat_inj]
  have hone : (1 : Count).toNat = 1 := rfl
  have hzero : (0 : Count).toNat = 0 := rfl
  omega

theorem perInvocation_spec {raw parent : Count} (hp : 1 ≤ parent) :
    PerInvocation raw.toNat parent.toNat (perInvocation raw parent).toNat := by
  rw [perInvocation]
  by_cases hlt : raw < parent
  · rw [if_pos hlt]
    rw [UInt64.lt_iff_toNat_lt] at hlt
    exact ⟨fun _ => rfl, fun h => by omega, fun h => by omega⟩
  · rw [if_neg hlt, if_neg (perInvocation_ne_zero hp hlt), UInt64.toNat_div]
    rw [UInt64.lt_iff_toNat_lt] at hlt
    rw [UInt64.le_iff_toNat_le] at hp
    refine ⟨fun h => absurd h hlt, fun _ => Nat.div_mul_le_self _ _, fun _ => ?_⟩
    exact Nat.lt_mul_of_div_lt (Nat.lt_succ_self _) hp

-- more measured iterations may leave fewer in one invocation
example : perInvocation 9 10 = 9 ∧ perInvocation 10 10 = 1 := by decide

/-- Dividing by the count of the loop around never makes a positive count zero. -/
theorem perInvocation_pos {raw parent : Count} (hp : 1 ≤ parent) :
    0 < perInvocation raw parent ↔ 0 < raw := by
  have hspec : PerInvocation raw.toNat parent.toNat (perInvocation raw parent).toNat :=
    perInvocation_spec hp
  have hzero := hspec.eq_zero_iff (UInt64.le_iff_toNat_le.mp hp)
  rw [UInt64.lt_iff_toNat_lt, UInt64.lt_iff_toNat_lt]
  show 0 < _ ↔ 0 < _
  omega

/-- A node runs in each invocation exactly when its line was measured to run at all. -/
theorem answer_new_pos {p : Profile} {node : Node} (h : g.node? n = some node) :
    0 < (new p).answer g n ↔ 0 < p.get node.line := by
  rw [answer_new, perInvocation_pos (one_le_parent _ g n), raw, h]
  exact Iff.rfl

end Estimator

namespace Session

variable {s s' s'' : Session} {n : Nat}

/-- The later session asks the same graph by the same index and markers, and answers alike. -/
structure Follows (s s' : Session) : Prop where
  graph : s'.graph = s.graph
  index : s'.index = s.index
  markers : s'.markers = s.markers
  iterations : Estimator.Agree s.graph s.iterations s'.iterations

theorem Follows.refl (s : Session) : s.Follows s := ⟨rfl, rfl, rfl, .refl _⟩

theorem Follows.trans (h : s.Follows s') (h' : s'.Follows s'') : s.Follows s'' where
  graph := h'.graph.trans h.graph
  index := h'.index.trans h.index
  markers := h'.markers.trans h.markers
  iterations := h.iterations.trans (h.graph ▸ h'.iterations)

def answer (s : Session) (n : Nat) : Count :=
  s.iterations.answer s.graph n

theorem Follows.answer (h : s.Follows s') (n : Nat) : s'.answer n = s.answer n := by
  rw [Session.answer, h.graph]
  exact h.iterations n

theorem effectiveIterations_fst (s : Session) (n : Nat) :
    (s.effectiveIterations n).1 = s.answer n :=
  rfl

theorem follows_effectiveIterations (s : Session) (n : Nat) :
    s.Follows (s.effectiveIterations n).2 :=
  ⟨rfl, rfl, rfl, Estimator.agree_effective s.graph s.iterations n⟩

end Session

end UnitGraph
