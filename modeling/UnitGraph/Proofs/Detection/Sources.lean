import UnitGraph.Proofs.Detection.Ownership

/-!
# What sources of verdicts owe

A source owes a node that is no loop, and a number that is no node, neither property; and it owes a
loop the reduction that is stored on it.  Stored verdicts keep to that.  Scores do on loops, but a
score may name any node, and one that reaches the threshold makes a node do-all whatever its kind.
Detection asks about loops only, so its reports do not show that.
-/

namespace UnitGraph

namespace VerdictSource

/-- On the graph, the source gives neither property to what is no loop, and to a loop the reduction
stored on it. -/
structure Honours (v : VerdictSource) (g : Graph) : Prop where
  others : ∀ n, ¬g.isKind n .loop → v g n = {}
  reduction : ∀ n node doAll reduction, g.node? n = some node →
    node.payload = .loop doAll reduction → (v g n).reduction = reduction

def onLoops (v : VerdictSource) : VerdictSource := fun g n =>
  if g.isKind n .loop then v g n else {}

end VerdictSource

/-! ## Stored verdicts -/

section Stored

variable {g : Graph} {n : Nat} {node : Node}

theorem storedVerdict_of_loop {doAll reduction : Bool} (hn : g.node? n = some node)
    (hp : node.payload = .loop doAll reduction) : storedVerdict g n = ⟨doAll, reduction⟩ := by
  rw [storedVerdict, hn, Option.map_some, hp]

theorem storedVerdict_of_not_loop (h : ¬g.isKind n .loop) : storedVerdict g n = {} := by
  rw [storedVerdict]
  split
  · rename_i hp
    obtain ⟨node, hn, hp⟩ := Option.map_eq_some_iff.mp hp
    exact absurd (Graph.isKind_iff.mpr ⟨node, hn, by rw [Node.kind, hp]; rfl⟩) h
  · rfl

theorem honours_storedVerdict (g : Graph) : VerdictSource.Honours storedVerdict g where
  others _ h := storedVerdict_of_not_loop h
  reduction _ _ _ _ hn hp := by rw [storedVerdict_of_loop hn hp]

end Stored

/-! ## Scores -/

namespace SuitabilityScores

variable {s : SuitabilityScores} {g : Graph} {n : Nat} {node : Node} {score : Float}

theorem verdict_of_scored (hn : g.node? n = some node) (hs : s.scores[node.id]? = some score) :
    s.verdict g n = ⟨s.threshold ≤ score, (storedVerdict g n).reduction⟩ := by
  rw [verdict, hn, Option.bind_some, hs]
  rfl

theorem verdict_of_unscored (hn : g.node? n = some node) (hs : s.scores[node.id]? = none) :
    s.verdict g n = storedVerdict g n := by
  rw [verdict, hn, Option.bind_some, hs]

theorem reduction_verdict (s : SuitabilityScores) (g : Graph) (n : Nat) :
    (s.verdict g n).reduction = (storedVerdict g n).reduction := by
  rw [verdict]
  split <;> rfl

theorem verdict_of_missing (hn : g.node? n = none) : s.verdict g n = {} := by
  rw [verdict, storedVerdict, hn]
  rfl

theorem reduction_verdict_of_loop (s : SuitabilityScores) {doAll reduction : Bool}
    (hn : g.node? n = some node) (hp : node.payload = .loop doAll reduction) :
    (s.verdict g n).reduction = reduction := by
  rw [reduction_verdict, storedVerdict_of_loop hn hp]

/-- Scores keep to what a source owes exactly when none that is given to another node than a loop
reaches the threshold. -/
theorem honours_verdict_iff (s : SuitabilityScores) (g : Graph) :
    s.verdict.Honours g ↔ ∀ n node score, g.node? n = some node → ¬g.isKind n .loop →
      s.scores[node.id]? = some score → ¬s.threshold ≤ score := by
  constructor
  · intro h n node score hn hkind hscore hle
    -- a score that reaches the threshold answers for a node that is no loop
    have hverdict := h.others n hkind
    rw [verdict_of_scored hn hscore, decide_eq_true hle] at hverdict
    cases hverdict
  · intro h
    refine ⟨fun n hkind => ?_, fun n node doAll reduction => reduction_verdict_of_loop s⟩
    cases hn : g.node? n with
    | none => exact verdict_of_missing hn
    | some node =>
      cases hscore : s.scores[node.id]? with
      | none => rw [verdict_of_unscored hn hscore, storedVerdict_of_not_loop hkind]
      | some score =>
        rw [verdict_of_scored hn hscore, storedVerdict_of_not_loop hkind,
          decide_eq_false (h n node score hn hkind hscore)]

end SuitabilityScores

/-! ## Detection asks about loops -/

theorem VerdictSource.onLoops_of_loop {g : Graph} {l : Nat} (v : VerdictSource)
    (h : g.isKind l .loop) : v.onLoops g l = v g l := by
  rw [onLoops, if_pos h]

theorem VerdictSource.onLoops_of_not_loop {g : Graph} {n : Nat} (v : VerdictSource)
    (h : ¬g.isKind n .loop) : v.onLoops g n = {} := by
  rw [onLoops, if_neg h]

namespace Detector

variable {config : Config} {v v' : VerdictSource} {g : Graph}

/-- Sources that agree on the loops of a graph give the same evaluations. -/
theorem evaluate_congr_on_loops (h : ∀ l, g.isKind l .loop → v' g l = v g l) (p : Profile)
    (n : Nat) : ((mk config v').evaluate (.new g p config) n).1 =
      ((mk config v).evaluate (.new g p config) n).1 := by
  have hblocking : (mk config v').findBlockingLoop (.new g p config) n =
      (mk config v).findBlockingLoop (.new g p config) n := by
    rw [findBlockingLoop, findBlockingLoop, ← List.head?_filter, ← List.head?_filter]
    apply congrArg List.head?
    apply List.filter_congr
    intro l hl
    show (!(v' g l).isParallelizable) = !(v g l).isParallelizable
    rw [h l (List.mem_filter.mp hl).2]
  rw [evaluate, evaluate, hblocking]

theorem run_congr_on_loops (h : ∀ l, g.isKind l .loop → v' g l = v g l) (p : Profile) :
    (mk config v').run g p = (mk config v).run g p := by
  have hevaluate : ∀ n, ((mk config v').evaluate (.new g p config) n).1 =
      ((mk config v).evaluate (.new g p config) n).1 := evaluate_congr_on_loops h p
  have hfunctions : ((mk config v').run g p).1.functions = ((mk config v).run g p).1.functions := by
    rw [functions_run, functions_run]
    exact List.map_congr_left fun n _ => hevaluate n
  have hafter : ((mk config v').run g p).2 = ((mk config v).run g p).2 := by
    rw [run_snd, run_snd]
    simp only [hevaluate]
  rw [run_eq, hfunctions, hafter]
  rfl

end Detector

/-! ## What scores keep to -/

namespace SuitabilityScores

/-- Stored verdicts keep to what a source owes.  Scores always give a loop the reduction stored on
it and a missing node neither property, and they keep to the rest exactly when no score of another
node than a loop reaches the threshold.  A run with them is the run with the source that agrees with
them on loops and keeps to all of it. -/
theorem honours_exactly (calls : List Builder.Call) (s : SuitabilityScores) :
    let g := Graph.ofCalls calls
    storedVerdict.Honours g ∧
    (∀ n node doAll reduction, g.node? n = some node → node.payload = .loop doAll reduction →
      (s.verdict g n).reduction = reduction) ∧
    (∀ n, g.nodes.size ≤ n → s.verdict g n = {}) ∧
    (s.verdict.Honours g ↔ ∀ n node score, g.node? n = some node → ¬g.isKind n .loop →
      s.scores[node.id]? = some score → ¬s.threshold ≤ score) ∧
    s.verdict.onLoops.Honours g ∧
    ∀ config p, (Detector.mk config s.verdict).run g p =
      (Detector.mk config s.verdict.onLoops).run g p := by
  intro g
  refine ⟨honours_storedVerdict g, fun n node doAll reduction => reduction_verdict_of_loop s,
    fun n hn => verdict_of_missing (Graph.node?_of_ge hn), honours_verdict_iff s g,
    ⟨fun n => s.verdict.onLoops_of_not_loop, fun n node doAll reduction hn hp => ?_⟩,
    fun config p => Detector.run_congr_on_loops (fun l hl => ?_) p⟩
  · -- on a loop the restricted source is the source itself
    have hkind : g.isKind n .loop := Graph.isKind_iff.mpr ⟨node, hn, by rw [Node.kind, hp]; rfl⟩
    rw [s.verdict.onLoops_of_loop hkind]
    exact reduction_verdict_of_loop s hn hp
  · exact (s.verdict.onLoops_of_loop hl).symm

/-- With the threshold of the default settings, a score of 0.95 for a function makes the function
do-all. -/
theorem not_honours_scoredFunction :
    let f : Node := ⟨"f", ⟨1, 1⟩, .function "main", none⟩
    let g := Graph.ofCalls [.node f]
    let s := (new (Config.threshold {})).withScore "f" 0.95
    ¬g.isKind 0 .loop ∧ storedVerdict g 0 = {} ∧ s.verdict g 0 = ⟨true, false⟩ ∧
    ¬s.verdict.Honours g := by
  intro f g s
  have hnode : g.node? 0 = some f := by
    show (Graph.ofCalls ([f].map .node)).node? 0 = some f
    rw [Graph.ofCalls_nodes (by decide), Graph.node?_ofNodes]
    rfl
  have hkind : ¬g.isKind 0 .loop := by
    rw [Graph.isKind, Graph.kind?, hnode]
    decide
  have hscore : s.scores[f.id]? = some 0.95 := Std.ExtHashMap.getElem?_insert_self
  -- the default threshold is reached
  have hreaches : s.threshold ≤ 0.95 := by
    show (0.9 : Float) ≤ 0.95
    decide
  refine ⟨hkind, storedVerdict_of_not_loop hkind, ?_, fun h => ?_⟩
  · rw [verdict_of_scored hnode hscore, storedVerdict_of_not_loop hkind, decide_eq_true hreaches]
  · exact (s.honours_verdict_iff g).mp h 0 f 0.95 hnode hkind hscore hreaches

end SuitabilityScores

end UnitGraph
