import UnitGraph.Proofs.Detection.Sources

/-!
# Scores are stored verdicts

A detector with scores does what a detector without them does on the graph in which the scores have
been turned into stored verdicts beforehand.  Of several scores for one identifier the last one
counts, and one that names no loop is never looked at.
-/

namespace UnitGraph

def lastScore? (pairs : List (String × Float)) (id : String) : Option Float :=
  pairs.reverse.lookup id

/-- The node with its score turned into a stored verdict: a loop with a score is do-all when the
last one reaches the threshold, and is a reduction if it was one. -/
def Node.rescored (threshold : Float) (pairs : List (String × Float)) (node : Node) : Node :=
  match node.payload, lastScore? pairs node.id with
  | .loop _ reduction, some score => { node with payload := .loop (threshold ≤ score) reduction }
  | _, _ => node

def Graph.rescored (threshold : Float) (pairs : List (String × Float)) (g : Graph) : Graph :=
  g.mapNodes (Node.rescored threshold pairs)

/-! ## Lists of scores -/

namespace SuitabilityScores

variable {threshold : Float} {pairs : List (String × Float)}

theorem scores_foldl (pairs : List (String × Float)) (s : SuitabilityScores) (id : String) :
    (pairs.foldl (fun s (id, score) => s.withScore id score) s).scores[id]? =
      (lastScore? pairs id).or s.scores[id]? := by
  induction pairs generalizing s with
  | nil => rfl
  | cons pair pairs ih =>
    rcases pair with ⟨id', score⟩
    have hinsert : (s.withScore id' score).scores[id]? =
        if id' == id then some score else s.scores[id]? :=
      Std.ExtHashMap.getElem?_insert
    -- a score at the head counts only where no later one does
    rw [List.foldl_cons, ih, hinsert, lastScore?, lastScore?, List.reverse_cons,
      List.lookup_append, Option.or_assoc, List.lookup_cons, BEq.comm]
    cases id == id' <;> rfl

theorem scores_ofList (threshold : Float) (pairs : List (String × Float)) (id : String) :
    (ofList threshold pairs).scores[id]? = lastScore? pairs id := by
  rw [ofList, scores_foldl, new, Std.ExtHashMap.getElem?_empty, Option.or_none]

theorem threshold_ofList (threshold : Float) (pairs : List (String × Float)) :
    (ofList threshold pairs).threshold = threshold := by
  have hfoldl : ∀ s : SuitabilityScores,
      (pairs.foldl (fun s (id, score) => s.withScore id score) s).threshold = s.threshold := by
    induction pairs with
    | nil => exact fun _ => rfl
    | cons pair pairs ih => exact fun s => ih (s.withScore pair.1 pair.2)
  exact hfoldl (new threshold)

end SuitabilityScores

/-! ## Scores on the nodes -/

section Rescored

variable {threshold : Float} {pairs : List (String × Float)} {g : Graph} {node : Node}
  {doAll reduction : Bool}

namespace Node

theorem rescored_of_scored {score : Float} (hp : node.payload = .loop doAll reduction)
    (hs : lastScore? pairs node.id = some score) : node.rescored threshold pairs =
      { node with payload := .loop (threshold ≤ score) reduction } := by
  rw [rescored, hp, hs]

theorem rescored_of_unscored (hs : lastScore? pairs node.id = none) :
    node.rescored threshold pairs = node := by
  rw [rescored, hs]
  split
  · contradiction
  · rfl

theorem rescored_of_not_loop (hk : node.kind ≠ .loop) : node.rescored threshold pairs = node := by
  rw [rescored]
  split
  · rename_i hp _
    exact absurd (by rw [kind, hp]; rfl) hk
  · rfl

/-- A score changes a verdict only. -/
theorem relabels_rescored (threshold : Float) (pairs : List (String × Float)) :
    Relabels (rescored threshold pairs) := by
  -- a node is left alone or gets another flag on its loop, and no question but the verdict reads
  -- the flag
  have hcases : ∀ node, rescored threshold pairs node = node ∨ ∃ doAll doAll' reduction,
      node.payload = .loop doAll reduction ∧
        rescored threshold pairs node = { node with payload := .loop doAll' reduction } := by
    intro node
    rw [rescored]
    split
    · rename_i hp _
      exact .inr ⟨_, _, _, hp, rfl⟩
    · exact .inl rfl
  constructor
  all_goals
    intro node
    rcases hcases node with heq | ⟨_, _, _, hp, heq⟩
    · rw [heq]
    · simp [heq, kind, displayName, hp, Payload.kind]

/-- A verdict of a run is recorded on functions, which no score changes. -/
theorem judged_rescored (node : Node) (verdict : Bool) :
    (node.rescored threshold pairs).judged verdict =
      (node.judged verdict).rescored threshold pairs := by
  by_cases hk : node.kind = .function
  · have hk' : { node with decomposes := some verdict }.kind ≠ .loop := by
      change node.kind ≠ .loop
      rw [hk]
      decide
    rw [rescored_of_not_loop (by rw [hk]; decide), judged, if_pos hk, rescored_of_not_loop hk']
  · have hk' : (node.rescored threshold pairs).kind ≠ .function := by
      rwa [(relabels_rescored threshold pairs).kind]
    rw [judged, judged, if_neg hk, if_neg hk']

end Node

theorem Graph.judged_rescored (g : Graph) (verdict : Nat → Bool) :
    (g.rescored threshold pairs).judged verdict = (g.judged verdict).rescored threshold pairs := by
  apply Graph.eq_of_node?
  · intro n
    rw [Graph.node?_judged, Graph.rescored, Graph.rescored, Graph.node?_mapNodes,
      Graph.node?_mapNodes, Graph.node?_judged, Option.map_map, Option.map_map]
    apply congrArg (Option.map · _)
    funext node
    exact node.judged_rescored (verdict n)
  · rfl
  · rfl

/-- On a loop, the verdict by scores is the one that is stored once the scores are on the nodes. -/
theorem storedVerdict_rescored {l : Nat} (hl : g.isKind l .loop) :
    storedVerdict (g.rescored threshold pairs) l =
      (SuitabilityScores.ofList threshold pairs).verdict g l := by
  rcases Graph.isKind_iff.mp hl with ⟨node, hn, hk⟩
  have hnode : (g.rescored threshold pairs).node? l = some (node.rescored threshold pairs) := by
    rw [Graph.rescored, Graph.node?_mapNodes, hn, Option.map_some]
  have hscore := SuitabilityScores.scores_ofList threshold pairs node.id
  -- a loop without a score keeps its flag on both sides
  rcases hp : node.payload with _ | ⟨doAll, reduction⟩ | _ | _
  case loop =>
    cases hs : lastScore? pairs node.id with
    | none =>
      rw [Node.rescored_of_unscored hs] at hnode
      rw [hs] at hscore
      rw [SuitabilityScores.verdict_of_unscored hn hscore, storedVerdict_of_loop hn hp,
        storedVerdict_of_loop hnode hp]
    | some score =>
      rw [Node.rescored_of_scored hp hs] at hnode
      rw [hs] at hscore
      rw [SuitabilityScores.verdict_of_scored hn hscore, storedVerdict_of_loop hn hp,
        storedVerdict_of_loop hnode rfl, SuitabilityScores.threshold_ofList]
  all_goals
    rw [Node.kind, hp] at hk
    cases hk

theorem Graph.decomposes?_rescored (g : Graph) (n : Nat) :
    (g.rescored threshold pairs).decomposes? n = g.decomposes? n := by
  rw [Graph.decomposes?, Graph.decomposes?, Graph.rescored, Graph.node?_mapNodes, Option.bind_map]
  apply congrArg (Option.bind _)
  funext node
  rw [Function.comp_apply, Node.rescored]
  split <;> rfl

end Rescored

/-! ## Runs -/

namespace Detector

section Stored

variable {g : Graph} (hg : g.Sound) (config : Config) (pairs : List (String × Float)) (p : Profile)
include hg

theorem evaluate_rescored (n : Nat) :
    ((new config).evaluate (.new (g.rescored config.threshold pairs) p config) n).1 =
      ((withScores config pairs).evaluate (.new g p config) n).1 :=
  evaluate_mapNodes hg (Node.relabels_rescored config.threshold pairs)
    (fun _ hl => storedVerdict_rescored hl) p config n

theorem functions_run_rescored :
    ((new config).run (g.rescored config.threshold pairs) p).1.functions =
      ((withScores config pairs).run g p).1.functions := by
  rw [functions_run, functions_run, Graph.rescored,
    Graph.functions_mapNodes (Node.relabels_rescored config.threshold pairs)]
  exact List.map_congr_left fun n _ => evaluate_rescored hg config pairs p n

theorem run_rescored_snd : ((new config).run (g.rescored config.threshold pairs) p).2 =
    ((withScores config pairs).run g p).2.rescored config.threshold pairs := by
  rw [run_snd, run_snd, ← Graph.judged_rescored]
  apply congrArg (Graph.judged _)
  funext n
  exact congrArg Outcome.matched (evaluate_rescored hg config pairs p n)

end Stored

/-- A run with scores reports what a run without them reports on the graph that has the scores
stored on its loops, and it records the same verdicts. -/
theorem run_withScores (calls : List Builder.Call) (config : Config)
    (pairs : List (String × Float)) (p : Profile) :
    let g := Graph.ofCalls calls
    let scored := (withScores config pairs).run g p
    let stored := (new config).run (g.rescored config.threshold pairs) p
    stored.1 = scored.1 ∧
    stored.2 = scored.2.rescored config.threshold pairs ∧
    ∀ n, stored.2.decomposes? n = scored.2.decomposes? n := by
  intro g scored stored
  have hg : g.Sound := Graph.sound_ofCalls calls
  have hf := Node.relabels_rescored config.threshold pairs
  have hfunctions : stored.1.functions = scored.1.functions :=
    functions_run_rescored hg config pairs p
  have hafter : stored.2 = scored.2.rescored config.threshold pairs :=
    run_rescored_snd hg config pairs p
  -- the entry is looked for after the verdicts have been recorded
  have hentry : stored.1.entry = scored.1.entry := by
    change ((stored.2.findFunction? config.mainFunction).bind stored.2.node?).map Node.id = _
    rw [hafter]
    exact Graph.id_findFunction?_mapNodes hf scored.2 config.mainFunction
  refine ⟨?_, hafter, fun n => ?_⟩
  · calc stored.1 = ⟨stored.1.functions, stored.1.entry⟩ := rfl
      _ = ⟨scored.1.functions, scored.1.entry⟩ := by rw [hfunctions, hentry]
      _ = scored.1 := rfl
  · rw [hafter]
    exact scored.2.decomposes?_rescored n

end Detector

end UnitGraph
