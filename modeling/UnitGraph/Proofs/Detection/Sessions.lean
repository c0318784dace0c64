import UnitGraph.Proofs.Analysis.Workload
import UnitGraph.Proofs.Detection.Outcomes

/-!
# A session answers as if it were new

A session only remembers what it would find again.  Questions asked of it, about workloads or about
functions, may fill its memory at any depth, but sessions that answer alike stay alike under every
question.  So each answer in a series is that of a new session with the profile installed last.
-/

namespace UnitGraph

/-! ## Actions that keep a state alike -/

section Steady

variable {σ α β : Type} {Alike : σ → σ → Prop} {act : σ → α × σ}

/-- States that are alike get one answer, and the state left behind is still like them. -/
def Steady (Alike : σ → σ → Prop) (act : σ → α × σ) : Prop :=
  ∀ s s', Alike s s' → (act s').1 = (act s).1 ∧ Alike s (act s').2

theorem Steady.map (h : Steady Alike act) (f : α → β) :
    Steady Alike fun s => (f (act s).1, (act s).2) := by
  intro s s' hs
  rcases h s s' hs with ⟨heq, halike⟩
  exact ⟨congrArg f heq, halike⟩

/-- One action after another: the second starts from states that both answer like the first one. -/
theorem Steady.bind {next : α → σ → β × σ} (refl : ∀ s, Alike s s) (h : Steady Alike act)
    (hnext : ∀ a, Steady Alike (next a)) :
    Steady Alike fun s => next (act s).1 (act s).2 := by
  intro s s' hs
  rcases h s s' hs with ⟨heq, hafter'⟩
  have hafter : Alike s (act s).2 := (h s s (refl s)).2
  have hfirst := hnext (act s).1 s (act s).2 hafter
  have hlast := hnext (act s).1 s (act s').2 hafter'
  beta_reduce
  -- both runs answer what the second action answers in a state like the first one
  rw [heq]
  exact ⟨hlast.1.trans hfirst.1.symm, hlast.2⟩

end Steady

/-! ## Workloads -/

namespace Workload

variable {m : Markers} {g : Graph} {ix : SubtreeIndex}

theorem addAll_cons (estimate : Nat → Estimate) (total : Count) (n : Nat) (ns : List Nat)
    (e : Estimator) :
    addAll estimate total (n :: ns) e =
      match (estimate n e).1 with
      | .ok count => addAll estimate (Count.add total count) ns (estimate n e).2
      | .error err => (.error err, (estimate n e).2) := by
  rw [addAll]
  rcases estimate n e with ⟨found, e'⟩
  cases found <;> rfl

theorem steady_addAll {estimate : Nat → Estimate} (h : ∀ n, Steady (Estimator.Agree g) (estimate n))
    (total : Count) (ns : List Nat) : Steady (Estimator.Agree g) (addAll estimate total ns) := by
  -- the total so far is general: it grows with every node of the list
  induction ns generalizing total with
  | nil => exact fun _ _ he => ⟨rfl, he⟩
  | cons n ns ih =>
    have hnext : ∀ found : Except GraphError Count, Steady (Estimator.Agree g) fun e =>
        match found with
        | .ok count => addAll estimate (Count.add total count) ns e
        | .error err => (.error err, e) := by
      intro found
      -- after an error nothing more is asked
      cases found with
      | ok count => exact ih (Count.add total count)
      | error err => exact fun _ _ he => ⟨rfl, he⟩
    have hbind := (h n).bind Estimator.Agree.refl hnext
    rw [show addAll estimate total (n :: ns) = _ from funext (addAll_cons estimate total n ns)]
    exact hbind

theorem within_function_zero {n : Nat} {node : Node} {name : String} {e : Estimator}
    (hn : g.node? n = some node) (hp : node.payload = .function name) :
    within m g ix 0 n e = (.ok 0, e) := by
  unfold within
  simp only [Graph.require_of_some hn, hp]

/-- Only at a function does the estimate ask for more than one count. -/
theorem steady_within_of_function {depth n : Nat}
    (h : ∀ node name, g.node? n = some node → node.payload = .function name →
      Steady (Estimator.Agree g) (within m g ix depth n)) :
    Steady (Estimator.Agree g) (within m g ix depth n) := by
  cases hn : g.node? n with
  | none =>
    intro e e' he
    rw [within_missing hn, within_missing hn]
    exact ⟨rfl, he⟩
  | some node =>
    cases hp : node.payload with
    | unit instructions block =>
      intro e e' he
      rw [within_unit hn hp, within_unit hn hp]
      exact ⟨rfl, he⟩
    | loop doAll reduction =>
      intro e e' he
      rw [within_loop hn hp, within_loop hn hp, he n]
      exact ⟨rfl, he.trans (Estimator.agree_effective g e' n)⟩
    | function name => exact h node name hn hp
    | dummy =>
      intro e e' he
      rw [within_dummy hn hp, within_dummy hn hp]
      exact ⟨rfl, he⟩

theorem steady_within (depth n : Nat) :
    Steady (Estimator.Agree g) (within m g ix depth n) := by
  induction depth generalizing n with
  | zero =>
    refine steady_within_of_function fun node name hn hp e e' he => ?_
    rw [within_function_zero hn hp, within_function_zero hn hp]
    exact ⟨rfl, he⟩
  | succ depth ih =>
    refine steady_within_of_function fun node name hn hp e e' he => ?_
    -- the children are estimated one after the other, with one level less to go down
    rw [within_function hn hp, within_function hn hp]
    exact steady_addAll ih 0 (g.children n) e e' he

end Workload

/-! ## Questions to one session -/

namespace Session

variable {s s' : Session} {n : Nat}

theorem steady_effectiveIterations (n : Nat) :
    Steady Follows fun s => s.effectiveIterations n := by
  intro s s' h
  refine ⟨?_, h.trans (follows_effectiveIterations s' n)⟩
  rw [effectiveIterations_fst, effectiveIterations_fst, h.answer]

theorem steady_workload (n : Nat) : Steady Follows fun s => s.workload n := by
  intro s s' h
  have hsteady : Steady (Estimator.Agree s.graph) (Workload.estimate s.markers s.graph s.index n) :=
    Workload.steady_within s.graph.nodes.size n
  rcases hsteady s.iterations s'.iterations h.iterations with ⟨heq, hagree⟩
  beta_reduce
  rw [workload, workload, h.graph, h.index, h.markers]
  exact ⟨heq, rfl, rfl, rfl, hagree⟩

theorem Follows.totalInstructions (h : s.Follows s') (n : Nat) :
    s'.totalInstructions n = s.totalInstructions n := by
  rw [Session.totalInstructions, Session.totalInstructions, h.graph, h.index]

end Session

theorem steady_countHeader (counts : HeaderCounts) (l : Nat) :
    Steady Session.Follows fun s => countHeader (counts, s) l := by
  intro s s' h
  beta_reduce
  rw [countHeader, countHeader, h.graph]
  cases hl : s.graph.node? l with
  | none => exact ⟨rfl, h⟩
  | some node =>
    exact (Session.steady_effectiveIterations l).map (counts.insert node.line) s s' h

theorem steady_countHeaders (counts : HeaderCounts) (ls : List Nat) :
    Steady Session.Follows fun s => ls.foldl countHeader (counts, s) := by
  induction ls generalizing counts with
  | nil => exact fun _ _ h => ⟨rfl, h⟩
  | cons l ls ih => exact (steady_countHeader counts l).bind Session.Follows.refl ih

namespace Detector

variable {d : Detector} {s s' : Session} {n : Nat}

theorem findBlockingLoop_of_follows (h : s.Follows s') (n : Nat) :
    d.findBlockingLoop s' n = d.findBlockingLoop s n := by
  rw [findBlockingLoop, findBlockingLoop, h.graph, h.index]

theorem steady_minChunkIterations (n : Nat) :
    Steady Session.Follows fun s => minChunkIterations s n := by
  intro s s' h
  beta_reduce
  rw [minChunkIterations, minChunkIterations, h.graph]
  exact (steady_countHeaders ∅ (s.graph.chunkLoops n)).map HeaderCounts.least s s' h

theorem steady_passesChunkLimit (n : Nat) :
    Steady Session.Follows fun s => passesChunkLimit s n :=
  (steady_minChunkIterations n).map fun least : Option Count => least.any fun c => decide (0 < c)

theorem steady_evaluate (d : Detector) (n : Nat) :
    Steady Session.Follows fun s => d.evaluate s n := by
  intro s s' h
  beta_reduce
  have hsame := findBlockingLoop_of_follows (d := d) h n
  -- the blocking loop is found without any count, so both sessions go the same way
  cases hblock : d.findBlockingLoop s n with
  | some l =>
    rw [hblock] at hsame
    rw [evaluate_of_some hblock, evaluate_of_some hsame, h.graph]
    exact ⟨rfl, h⟩
  | none =>
    rw [hblock] at hsame
    rcases steady_minChunkIterations n s s' h with ⟨heq, hfollows⟩
    beta_reduce at heq
    rw [evaluate_of_none hblock, evaluate_of_none hsame, h.graph, heq]
    exact ⟨rfl, hfollows⟩

theorem steady_evaluateEach (d : Detector) (ns : List Nat) :
    Steady Session.Follows fun s => d.evaluateEach s ns := by
  induction ns with
  | nil => exact fun _ _ h => ⟨rfl, h⟩
  | cons n ns ih =>
    exact (steady_evaluate d n).bind Session.Follows.refl fun outcome => ih.map (outcome :: ·)

theorem steady_evaluateAll (d : Detector) : Steady Session.Follows d.evaluateAll := by
  intro s s' h
  rw [evaluateAll, evaluateAll, h.graph]
  exact steady_evaluateEach d s.graph.functions s s' h

end Detector

/-! ## Series of questions -/

inductive Query
  | effectiveIterations (n : Nat)
  | workload (n : Nat)
  | totalInstructions (n : Nat)
  | findBlockingLoop (d : Detector) (n : Nat)
  | matchesPattern (d : Detector) (n : Nat)
  | minChunkIterations (n : Nat)
  | passesChunkLimit (n : Nat)
  | evaluate (d : Detector) (n : Nat)
  | evaluateAll (d : Detector)
  | resetProfile (p : Profile)

inductive Reply
  | count (c : Count)
  | workload (w : Except GraphError Count)
  | loop (l : Option Nat)
  | least (c : Option Count)
  | decision (b : Bool)
  | outcomes (os : List Outcome)
  | done

def Query.installed (p : Profile) : Query → Profile
  | .resetProfile q => q
  | _ => p

namespace Session

def ask (s : Session) : Query → Reply × Session
  | .effectiveIterations n => (s.effectiveIterations n).map .count id
  | .workload n => (s.workload n).map .workload id
  | .totalInstructions n => (.count (s.totalInstructions n), s)
  | .findBlockingLoop d n => (.loop (d.findBlockingLoop s n), s)
  | .matchesPattern d n => (.decision (d.matchesPattern s n), s)
  | .minChunkIterations n => (Detector.minChunkIterations s n).map .least id
  | .passesChunkLimit n => (Detector.passesChunkLimit s n).map .decision id
  | .evaluate d n => (d.evaluate s n).map (fun o => .outcomes [o]) id
  | .evaluateAll d => (d.evaluateAll s).map .outcomes id
  | .resetProfile p => (.done, s.resetProfile p)

def askAll (s : Session) : List Query → List Reply
  | [] => []
  | q :: qs => (s.ask q).1 :: askAll (s.ask q).2 qs

def askNew (g : Graph) (config : Config) (p : Profile) (q : Query) : Reply :=
  ((new g p config).ask q).1

/-- The replies of new sessions, one for each question, with the profile installed last. -/
def askEachNew (g : Graph) (config : Config) (p : Profile) : List Query → List Reply
  | [] => []
  | q :: qs => askNew g config p q :: askEachNew g config (q.installed p) qs

/-- A session that has only remembered things since its profile was installed replies like a new
one, and still does so after the question. -/
theorem ask_of_follows {g : Graph} {config : Config} {p : Profile} {s : Session}
    (h : (new g p config).Follows s) (q : Query) :
    (s.ask q).1 = askNew g config p q ∧ (new g (q.installed p) config).Follows (s.ask q).2 := by
  cases q with
  | effectiveIterations n => exact (steady_effectiveIterations n).map Reply.count _ s h
  | workload n => exact (steady_workload n).map Reply.workload _ s h
  | totalInstructions n => exact ⟨congrArg Reply.count (h.totalInstructions n), h⟩
  | findBlockingLoop d n =>
    exact ⟨congrArg Reply.loop (Detector.findBlockingLoop_of_follows h n), h⟩
  | matchesPattern d n =>
    have hsame := Detector.findBlockingLoop_of_follows (d := d) h n
    exact ⟨congrArg (fun l : Option Nat => Reply.decision l.isNone) hsame, h⟩
  | minChunkIterations n => exact (Detector.steady_minChunkIterations n).map Reply.least _ s h
  | passesChunkLimit n => exact (Detector.steady_passesChunkLimit n).map Reply.decision _ s h
  | evaluate d n => exact (Detector.steady_evaluate d n).map (fun o => Reply.outcomes [o]) _ s h
  | evaluateAll d => exact (Detector.steady_evaluateAll d).map Reply.outcomes _ s h
  | resetProfile q =>
    -- nothing of what was remembered is left, so the session starts anew
    refine ⟨rfl, h.graph, h.index, h.markers, ?_⟩
    exact .refl (.new q)

theorem askAll_of_follows {g : Graph} {config : Config} {p : Profile} {s : Session}
    (h : (new g p config).Follows s) (qs : List Query) :
    s.askAll qs = askEachNew g config p qs := by
  induction qs generalizing p s with
  | nil => rfl
  | cons q qs ih =>
    rcases ask_of_follows h q with ⟨hreply, hafter⟩
    rw [askAll, askEachNew, hreply, ih hafter]

end Session

theorem Detector.evaluateEach_eq_map {d : Detector} {g : Graph} {config : Config} {p : Profile}
    {s : Session} (h : (Session.new g p config).Follows s) (ns : List Nat) :
    (d.evaluateEach s ns).1 = ns.map fun n => (d.evaluate (.new g p config) n).1 := by
  induction ns generalizing s with
  | nil => rfl
  | cons n ns ih =>
    rcases steady_evaluate d n _ s h with ⟨heq, hafter⟩
    rw [List.map_cons, ← ih hafter]
    exact congrArg (· :: (d.evaluateEach (d.evaluate s n).2 ns).1) heq

/-- Whatever a session was asked before, each of its replies is that of a new session over the graph
with the profile installed last; and evaluating all functions in one session evaluates each of them
in a new one. -/
theorem Session.askAll_eq (calls : List Builder.Call) (config : Config) (p : Profile) :
    let g := Graph.ofCalls calls
    (∀ qs, (new g p config).askAll qs = askEachNew g config p qs) ∧
    ∀ d : Detector, (d.evaluateAll (new g p config)).1 =
      g.functions.map fun n => (d.evaluate (new g p config) n).1 := by
  intro g
  refine ⟨fun qs => askAll_of_follows (.refl _) qs, fun d => ?_⟩
  exact Detector.evaluateEach_eq_map (.refl _) g.functions

end UnitGraph
