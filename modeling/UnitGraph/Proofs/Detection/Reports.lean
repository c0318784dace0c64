import UnitGraph.Proofs.Detection.Sessions

/-!
# The report of a run

A report lists one outcome for each function.  Functions have different identifiers, so an outcome
is found under the identifier of its function and under no other.
-/

namespace UnitGraph.Detector

variable {d : Detector} {g : Graph} {p : Profile} {n : Nat} {id : String} {o : Outcome}

theorem functions_run (d : Detector) (g : Graph) (p : Profile) : (d.run g p).1.functions =
    g.functions.map fun n => (d.evaluate (.new g p d.config) n).1 :=
  evaluateEach_eq_map (.refl _) g.functions

theorem mem_functions_run : o ∈ (d.run g p).1.functions ↔
    ∃ n, g.isKind n .function ∧ (d.evaluate (.new g p d.config) n).1 = o := by
  simp only [functions_run, List.mem_map, Graph.functions, Graph.mem_ofKind]

theorem map_node_functions_run (d : Detector) (g : Graph) (p : Profile) :
    (d.run g p).1.functions.map Outcome.node = g.functions := by
  rw [functions_run, List.map_map]
  exact List.map_id g.functions

theorem id_evaluate {node : Node} (hg : g.Sound) (hn : g.node? n = some node) :
    (d.evaluate (.new g p d.config) n).1.id = node.id := by
  have hid := (explains_evaluate (d := d) (p := p) hg (.refl _) (Graph.lt_of_node? hn)).id
  rw [hn, Option.map_some, Option.some_inj] at hid
  exact hid.symm

/-- Functions have different identifiers, so their outcomes do. -/
theorem nodup_ids_run (hg : g.Sound) (d : Detector) (p : Profile) :
    ((d.run g p).1.functions.map Outcome.id).Nodup := by
  rw [functions_run, List.map_map]
  refine List.Nodup.map_on (fun n hn m hm heq => ?_) (List.nodup_range.filter _)
  obtain ⟨node, hnode, _⟩ := Graph.isKind_iff.mp (Graph.mem_ofKind.mp hn)
  obtain ⟨node', hnode', _⟩ := Graph.isKind_iff.mp (Graph.mem_ofKind.mp hm)
  rw [Function.comp_apply, Function.comp_apply, id_evaluate hg hnode, id_evaluate hg hnode'] at heq
  have hbyId := (hg.ids node.id n).mpr ⟨node, hnode, rfl⟩
  rw [(hg.ids node.id m).mpr ⟨node', hnode', heq.symm⟩] at hbyId
  exact (Option.some.inj hbyId).symm

theorem outcome?_eq_some (hg : g.Sound) :
    (d.run g p).1.outcome? id = some o ↔ o ∈ (d.run g p).1.functions ∧ o.id = id := by
  constructor
  · intro h
    have hid := List.find?_some h
    exact ⟨List.mem_of_find?_eq_some h, of_decide_eq_true hid⟩
  · rintro ⟨ho, rfl⟩
    cases hfind : (d.run g p).1.outcome? o.id with
    | none => exact absurd (decide_eq_true rfl) (List.find?_eq_none.mp hfind o ho)
    | some o' =>
      -- two outcomes of one identifier are one outcome
      have hid := List.find?_some hfind
      have ho' := List.mem_of_find?_eq_some hfind
      rw [List.inj_on_of_nodup_map (nodup_ids_run hg d p) ho' ho (of_decide_eq_true hid)]

/-- The outcome that a report lists for a function is that of the function on its own. -/
theorem outcome?_run (hg : g.Sound) (p : Profile) (hid : g.byId? id = some n)
    (hn : g.isKind n .function) :
    (d.run g p).1.outcome? id = some (d.evaluate (.new g p d.config) n).1 := by
  obtain ⟨node, hnode, rfl⟩ := (hg.ids id n).mp hid
  exact (outcome?_eq_some hg).mpr ⟨mem_functions_run.mpr ⟨n, hn, rfl⟩, id_evaluate hg hnode⟩

end UnitGraph.Detector
