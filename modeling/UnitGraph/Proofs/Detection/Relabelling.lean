import UnitGraph.Proofs.Detection.Reports

/-!
# Detection on relabelled nodes

Nodes may be given other contents in place: other verdicts on loops, other records of earlier runs.
As long as every node keeps its identifier, line, kind and name, all that detection asks a graph for
stays the same, but for what its source of verdicts reads.  So a function is evaluated alike as soon
as the sources agree on the loops.
-/

namespace UnitGraph

/-- Every node keeps what identifies it, says where it begins, and tells what it is. -/
structure Node.Relabels (f : Node → Node) : Prop where
  id : ∀ node, (f node).id = node.id
  line : ∀ node, (f node).line = node.line
  kind : ∀ node, (f node).kind = node.kind
  displayName : ∀ node, (f node).displayName = node.displayName

def Graph.mapNodes (f : Node → Node) (g : Graph) : Graph := { g with nodes := g.nodes.map f }

variable {f : Node → Node} {g : Graph} {n : Nat}

/-! ## Containment -/

namespace Graph

theorem node?_mapNodes (f : Node → Node) (g : Graph) (n : Nat) :
    (g.mapNodes f).node? n = (g.node? n).map f :=
  Array.getElem?_map

theorem size_mapNodes (f : Node → Node) (g : Graph) :
    (g.mapNodes f).nodes.size = g.nodes.size :=
  Array.size_map

theorem isKind_mapNodes (hf : Node.Relabels f) (g : Graph) : (g.mapNodes f).isKind = g.isKind := by
  funext n kind
  rw [isKind, isKind, kind?, kind?, node?_mapNodes, Option.map_map]
  rw [show Node.kind ∘ f = Node.kind from funext hf.kind]

theorem functions_mapNodes (hf : Node.Relabels f) (g : Graph) :
    (g.mapNodes f).functions = g.functions := by
  rw [functions, functions, ofKind, ofKind, indices, indices, size_mapNodes, isKind_mapNodes hf]

theorem chunkLoops_mapNodes (hf : Node.Relabels f) (g : Graph) (n : Nat) :
    (g.mapNodes f).chunkLoops n = g.chunkLoops n := by
  simp only [chunkLoops, childrenOfKind, isKind_mapNodes hf]
  rfl

theorem enclosingLoop?_mapNodes (hf : Node.Relabels f) (g : Graph) (n : Nat) :
    (g.mapNodes f).enclosingLoop? n = g.enclosingLoop? n := by
  rw [enclosingLoop?, enclosingLoop?, isKind_mapNodes hf, ancestors, ancestors, size_mapNodes]
  rfl

theorem sound_mapNodes (hf : Node.Relabels f) : (g.mapNodes f).Sound ↔ g.Sound := by
  -- the fields of soundness speak of identifiers, kinds and edges, and all of these stay
  have hids : ∀ id n, (∃ node, (g.mapNodes f).node? n = some node ∧ node.id = id) ↔
      ∃ node, g.node? n = some node ∧ node.id = id := by
    intro id n
    rw [node?_mapNodes]
    simp [hf.id]
  constructor
  · intro h
    exact ⟨fun id n => (h.ids id n).trans (hids id n), h.single, size_mapNodes f g ▸ h.forest,
      fun s t d he => isKind_mapNodes hf g ▸ h.units s t d he⟩
  · intro h
    exact ⟨fun id n => (h.ids id n).trans (hids id n).symm, h.single,
      (size_mapNodes f g).symm ▸ h.forest,
      fun s t d he => (isKind_mapNodes hf g).symm ▸ h.units s t d he⟩

/-! ## Indexes

A walk over the graph never looks into a node. -/

theorem visit_mapNodes (f : Node → Node) (g : Graph) :
    SubtreeIndex.visit (g.mapNodes f) = SubtreeIndex.visit g := by
  funext ix v
  cases v <;> rfl

theorem walk_mapNodes (f : Node → Node) (g : Graph) :
    SubtreeIndex.walk (g.mapNodes f) = SubtreeIndex.walk g := by
  funext limit
  induction limit with
  | zero => rfl
  | succ limit ih =>
    funext pending ix
    cases pending with
    | nil => rfl
    | cons v pending => simp only [SubtreeIndex.walk, visit_mapNodes, ih]

theorem build_mapNodes (f : Node → Node) (g : Graph) :
    SubtreeIndex.build (g.mapNodes f) = SubtreeIndex.build g := by
  have hroots : (g.mapNodes f).roots = g.roots := by
    rw [roots, roots, indices, indices, size_mapNodes]
    rfl
  have htraverse : SubtreeIndex.traverse (g.mapNodes f) = SubtreeIndex.traverse g := by
    funext ix root
    rw [SubtreeIndex.traverse, SubtreeIndex.traverse, walk_mapNodes, SubtreeIndex.walkLimit,
      size_mapNodes]
    rfl
  rw [SubtreeIndex.build, SubtreeIndex.build, hroots, htraverse]

/-! ## Counts and names -/

theorem answer_mapNodes (hf : Node.Relabels f) (g : Graph) (p : Profile) :
    (Estimator.new p).answer (g.mapNodes f) = (Estimator.new p).answer g := by
  have hraw : ∀ n, (Estimator.new p).raw (g.mapNodes f) n = (Estimator.new p).raw g n := by
    intro n
    rw [Estimator.raw, Estimator.raw, node?_mapNodes]
    cases g.node? n with
    | none => rfl
    | some node => exact congrArg p.get (hf.line node)
  funext n
  simp only [Estimator.answer_new, Estimator.parent, enclosingLoop?_mapNodes hf, hraw]

theorem findFunction?_mapNodes (hf : Node.Relabels f) (g : Graph) (name : String) :
    (g.mapNodes f).findFunction? name = g.findFunction? name := by
  rw [findFunction?, findFunction?, functions_mapNodes hf]
  apply congrArg (List.find? · g.functions)
  funext n
  rw [node?_mapNodes, Option.any_map]
  apply congrArg (Option.any · _)
  funext node
  simp only [hf.displayName]

theorem id_mapNodes (hf : Node.Relabels f) (g : Graph) (n : Nat) :
    ((g.mapNodes f).node? n).map Node.id = (g.node? n).map Node.id := by
  rw [node?_mapNodes, Option.map_map]
  rw [show Node.id ∘ f = Node.id from funext hf.id]

theorem id_findFunction?_mapNodes (hf : Node.Relabels f) (g : Graph) (name : String) :
    (((g.mapNodes f).findFunction? name).bind (g.mapNodes f).node?).map Node.id =
      ((g.findFunction? name).bind g.node?).map Node.id := by
  rw [findFunction?_mapNodes hf, Option.map_bind, Option.map_bind]
  apply congrArg (Option.bind _)
  funext n
  exact id_mapNodes hf g n

end Graph

/-! ## Evaluations -/

namespace Detector

variable {d d' : Detector} {p : Profile} {config : Config}

theorem findBlockingLoop_mapNodes (hf : Node.Relabels f)
    (hd : ∀ l, g.isKind l .loop → d'.verdicts (g.mapNodes f) l = d.verdicts g l) (p : Profile)
    (config : Config) (n : Nat) : d'.findBlockingLoop (.new (g.mapNodes f) p config) n =
      d.findBlockingLoop (.new g p config) n := by
  have hloops : (SubtreeIndex.build (g.mapNodes f)).subtreeOfKind (g.mapNodes f) n .loop =
      (SubtreeIndex.build g).subtreeOfKind g n .loop := by
    rw [SubtreeIndex.subtreeOfKind, SubtreeIndex.subtreeOfKind, Graph.isKind_mapNodes hf,
      Graph.build_mapNodes]
  -- the first loop that cannot be split is the head of those that cannot
  rw [findBlockingLoop, findBlockingLoop, ← List.head?_filter, ← List.head?_filter]
  change (((SubtreeIndex.build (g.mapNodes f)).subtreeOfKind (g.mapNodes f) n .loop).filter
    _).head? = _
  rw [hloops]
  apply congrArg List.head?
  apply List.filter_congr
  intro l hl
  change (!(d'.verdicts (g.mapNodes f) l).isParallelizable) = !(d.verdicts g l).isParallelizable
  rw [hd l (List.mem_filter.mp hl).2]

theorem minChunkIterations_mapNodes (hg : g.Sound) (hf : Node.Relabels f) (p : Profile)
    (config : Config) (n : Nat) : (minChunkIterations (.new (g.mapNodes f) p config) n).1 =
      (minChunkIterations (.new g p config) n).1 := by
  rw [minChunkIterations_eq_min? hg (.refl _),
    minChunkIterations_eq_min? ((Graph.sound_mapNodes hf).mpr hg) (.refl _),
    Graph.chunkLoops_mapNodes hf, Graph.answer_mapNodes hf]

/-- With the same verdicts on loops a function is evaluated alike. -/
theorem evaluate_mapNodes (hg : g.Sound) (hf : Node.Relabels f)
    (hd : ∀ l, g.isKind l .loop → d'.verdicts (g.mapNodes f) l = d.verdicts g l) (p : Profile)
    (config : Config) (n : Nat) : (d'.evaluate (.new (g.mapNodes f) p config) n).1 =
      (d.evaluate (.new g p config) n).1 := by
  have hid := Graph.id_mapNodes hf g
  have hname : ((g.mapNodes f).node? n).map Node.displayName =
      (g.node? n).map Node.displayName := by
    rw [Graph.node?_mapNodes, Option.map_map]
    rw [show Node.displayName ∘ f = Node.displayName from funext hf.displayName]
  -- an outcome reads the node by its identifier and its name only
  have helim : ∀ (read : Node → String) (found : Option Node),
      found.elim "" read = (found.map read).getD "" := fun read found => by cases found <;> rfl
  have hblock := findBlockingLoop_mapNodes hf hd p config n
  cases h : d.findBlockingLoop (.new g p config) n with
  | none =>
    rw [h] at hblock
    rw [evaluate_of_none h, evaluate_of_none hblock, minChunkIterations_mapNodes hg hf, helim,
      helim, helim, helim]
    simp only [Session.new, hid, hname]
  | some l =>
    rw [h] at hblock
    rw [evaluate_of_some h, evaluate_of_some hblock, helim, helim, helim, helim]
    simp only [Session.new, hid, hname]

end Detector

end UnitGraph
