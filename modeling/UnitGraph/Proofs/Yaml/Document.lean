import UnitGraph.Proofs.Yaml.Mapping
import UnitGraph.Yaml.Value

/-!
# Documents read back

The tokens of a mapping form a node with its entries, and the value of that is a mapping with the
names as keys.
-/

namespace UnitGraph.Yaml

open Lexer (Entry nested nestedTokens)

variable {name : List Char} {r : Reading} {fuel depth : Nat}

namespace Read

/-! ## Single tokens -/

theorem run_skipIf {t : Token} {ts : List Token} (h : r.tokens = t :: ts) :
    (skipIf t).run r = some (true, { r with tokens := ts }) := by
  simp [skipIf, peek, skip, h]

theorem run_skipIf_of_ne {t u : Token} {ts : List Token} (h : r.tokens = u :: ts) (hne : u ≠ t) :
    (skipIf t).run r = some (false, r) := by
  simp [skipIf, peek, h, hne]

theorem run_expect {t : Token} {ts : List Token} (h : r.tokens = t :: ts) :
    (expect t).run r = some ((), { r with tokens := ts }) := by
  simp [expect, run_skipIf h]

theorem run_node_scalar {block entries plain : Bool} {s : List Char} {ts : List Token}
    (h : r.tokens = .scalar plain s :: ts) :
    (node (fuel + 1) block entries).run r =
      some (.scalar none plain s, { r with tokens := ts, size := r.size + 1 }) := by
  rw [node]
  simp [peek, h, properties, skip, count, anchor]

theorem run_orMissing {closing : Token → Bool} {t : Token} {ts : List Token} {read : Read Node}
    (h : r.tokens = t :: ts) (hclosing : closing t = false) :
    (orMissing closing read).run r = read.run r := by
  simp [orMissing, peek, h, hclosing]

/-! ## Mappings -/

def endsPart (t : Token) : Bool :=
  t = .key || t = .value || t = .blockEnd

/-- Tokens that form a node as a part of a block mapping, whatever stands after them. -/
def Forms (depth : Nat) (ts : List Token) (x : Node) : Prop :=
  ∀ (fuel : Nat) (r : Reading) (rest : List Token), r.tokens = ts ++ rest →
    ∃ r', r'.tokens = rest ∧
      (orMissing endsPart (node (fuel + depth) true true)).run r = some (x, r')

theorem forms_scalar {plain : Bool} {s : List Char} :
    Forms (depth + 1) [.scalar plain s] (.scalar none plain s) := fun _ _ _ h =>
  ⟨_, rfl, (run_orMissing h (by simp [endsPart])).trans (run_node_scalar h)⟩

structure Part where
  name : List Char
  tokens : List Token
  node : Node

variable {parts : List Part}

def Part.toTokens (x : Part) : List Token :=
  .key :: .scalar true x.name :: .value :: x.tokens

def Part.nodes (x : Part) : Node × Node :=
  (.scalar none true x.name, x.node)

theorem run_blockEntries_part {x : Part} {ts : List Token} {r' : Reading}
    (h : r.tokens = .key :: .scalar true x.name :: .value :: ts)
    (hvalue : (orMissing endsPart (node (fuel + 1) true true)).run
      { r with tokens := ts, size := r.size + 1 } = some (x.node, r')) :
    (blockEntries (fuel + 2)).run r =
      ((blockEntries (fuel + 1)).run r').map fun es => (x.nodes :: es.1, es.2) := by
  have hkey : (orMissing endsPart (node (fuel + 1) true true)).run
      { r with tokens := .scalar true x.name :: .value :: ts } =
        some (.scalar none true x.name, { r with tokens := .value :: ts, size := r.size + 1 }) :=
    (run_orMissing rfl (by simp [endsPart])).trans (run_node_scalar rfl)
  have hcolon : (skipIf .value).run { r with tokens := .value :: ts, size := r.size + 1 } =
      some (true, { r with tokens := ts, size := r.size + 1 }) := run_skipIf rfl
  -- the reader asks for the end of a part where it may be missing; here it never is
  have hends : (fun t : Token => decide (t = .key) || decide (t = .value) ||
      decide (t = .blockEnd)) = endsPart := rfl
  rw [blockEntries]
  simp only [StateT.run_bind, run_skipIf h, Option.bind_eq_bind, Option.bind_some, if_true, hends,
    hkey, hcolon, hvalue]
  cases (blockEntries (fuel + 1)).run r' with
  | none => rfl
  | some es => rfl

theorem run_blockEntries_blockEnd {ts : List Token} (h : r.tokens = .blockEnd :: ts) :
    (blockEntries (fuel + 1)).run r = some ([], { r with tokens := ts }) := by
  have hkey : Token.blockEnd ≠ .key := by decide
  rw [blockEntries]
  simp [run_skipIf_of_ne h hkey, run_expect h]

theorem exists_run_blockEntries (fuel : Nat) {ts : List Token}
    (hparts : ∀ x ∈ parts, Forms depth x.tokens x.node)
    (h : r.tokens = parts.flatMap Part.toTokens ++ .blockEnd :: ts) :
    ∃ r', r'.tokens = ts ∧
      (blockEntries (fuel + parts.length + depth + 1)).run r =
        some (parts.map Part.nodes, r') := by
  induction parts generalizing r with
  | nil => exact ⟨_, rfl, run_blockEntries_blockEnd h⟩
  | cons x parts ih =>
    rw [List.flatMap_cons, List.append_assoc] at h
    rcases hparts x List.mem_cons_self (fuel + parts.length + 1)
      { r with
        tokens := x.tokens ++ (parts.flatMap Part.toTokens ++ .blockEnd :: ts)
        size := r.size + 1 } _ rfl with ⟨r', hr', hvalue⟩
    rcases ih (fun y hy => hparts y (List.mem_cons_of_mem x hy)) hr' with ⟨r'', hr'', hrest⟩
    -- The part is read with the same fuel as the rest, and needs only what `depth` says.
    have hfuel : fuel + parts.length + 1 + depth = fuel + parts.length + depth + 1 := by omega
    rw [hfuel] at hvalue
    refine ⟨r'', hr'', ?_⟩
    change (blockEntries (fuel + (parts.length + 1) + depth + 1)).run r = _
    rw [← Nat.add_assoc, hfuel, run_blockEntries_part h hvalue, hrest]
    rfl

theorem run_node_blockMapping {entries : Bool} {ts : List Token} {es : List (Node × Node)}
    {r' : Reading} (h : r.tokens = .blockMappingStart :: ts)
    (hes : (blockEntries fuel).run { r with tokens := ts } = some (es, r')) :
    (node (fuel + 1) true entries).run r =
      some (.mapping none es, { r' with size := r'.size + 2 }) := by
  rw [node]
  simp [peek, h, properties, skip, count, anchor, hes]

def mappingTokens (parts : List Part) : List Token :=
  .blockMappingStart :: (parts.flatMap Part.toTokens ++ [.blockEnd])

def mappingNode (parts : List Part) : Node :=
  .mapping none (parts.map Part.nodes)

theorem exists_run_node_mapping (fuel : Nat) (entries : Bool) {ts : List Token}
    (hparts : ∀ x ∈ parts, Forms depth x.tokens x.node)
    (h : r.tokens = mappingTokens parts ++ ts) :
    ∃ r', r'.tokens = ts ∧
      (node (fuel + parts.length + depth + 2) true entries).run r =
        some (mappingNode parts, r') := by
  rw [mappingTokens, List.cons_append, List.append_assoc] at h
  rcases exists_run_blockEntries fuel (r := { r with
    tokens := parts.flatMap Part.toTokens ++ ([.blockEnd] ++ ts) }) hparts rfl with
    ⟨r', hr', hentries⟩
  exact ⟨{ r' with size := r'.size + 2 }, hr', run_node_blockMapping h hentries⟩

theorem forms_mapping (hparts : ∀ x ∈ parts, Forms depth x.tokens x.node) :
    Forms (parts.length + depth + 2) (mappingTokens parts) (mappingNode parts) := by
  intro fuel r ts h
  have hfuel : fuel + (parts.length + depth + 2) = fuel + parts.length + depth + 2 := by omega
  rw [run_orMissing h rfl, hfuel]
  exact exists_run_node_mapping fuel true hparts h

/-! ## Documents -/

def ofEntry (e : Entry) : Part :=
  ⟨e.name, [.scalar e.plain e.text], .scalar none e.plain e.text⟩

def nestedParts (first : Entry) (name : List Char) (es : List Entry) : List Part :=
  [ofEntry first, ⟨name, mappingTokens (es.map ofEntry), mappingNode (es.map ofEntry)⟩]

theorem nestedTokens_eq (first : Entry) (name : List Char) (es : List Entry) :
    nestedTokens first name es = mappingTokens (nestedParts first name es) ++ [.streamEnd] := by
  have hes : (es.map ofEntry).flatMap Part.toTokens = es.flatMap Entry.toTokens := by
    rw [List.flatMap_map]
    rfl
  simp [nestedTokens, nestedParts, mappingTokens, hes, Part.toTokens, Entry.toTokens, ofEntry]

theorem forms_nestedParts {first : Entry} {es : List Entry} :
    ∀ x ∈ nestedParts first name es, Forms (es.length + 3) x.tokens x.node := by
  have hentries : ∀ x ∈ es.map ofEntry, Forms 1 x.tokens x.node := by
    intro x hx
    rcases List.mem_map.mp hx with ⟨e, -, rfl⟩
    exact forms_scalar
  have hmapping := forms_mapping hentries
  rw [List.length_map] at hmapping
  exact List.forall_mem_cons.mpr ⟨forms_scalar, List.forall_mem_singleton.mpr hmapping⟩

theorem run_directives {ts : List Token} {handles : List (List Char × TagBytes)}
    (h : r.tokens = .blockMappingStart :: ts) :
    (directives (fuel + 1) false handles).run r =
      some (0, { r with handles := handles ++ standardHandles }) := by
  rw [directives]
  simp [peek, h]

theorem run_stream {ts : List Token} {root : Node} {r' : Reading}
    (h : r.tokens = .blockMappingStart :: ts)
    (hroot : (node (fuel + 1) true false).run { r with handles := [] ++ standardHandles } =
      some (root, r'))
    (hr' : r'.tokens = [.streamEnd]) :
    (stream (fuel + 1)).run r = some (root, { r' with tokens := [] }) := by
  -- neither directives nor a document mark: the root follows at once
  have hpeek : peek.run r = some (.blockMappingStart, r) := by simp [peek, h]
  have hstart : (skipIf .documentStart).run { r with handles := [] ++ standardHandles } =
      some (false, { r with handles := [] ++ standardHandles }) := run_skipIf_of_ne h (by decide)
  have hends : (documentEnds (fuel + 1)).run r' = some ((), r') := by
    rw [documentEnds]
    simp [run_skipIf_of_ne hr' (by decide : Token.streamEnd ≠ .documentEnd)]
  rw [List.nil_append] at hroot hstart
  rw [stream]
  simp [hpeek, run_directives h, hstart, hroot, hends, run_expect hr']

theorem length_nestedTokens (first : Entry) (name : List Char) (es : List Entry) :
    (nestedTokens first name es).length = 4 * es.length + 12 := by
  have hes : (es.flatMap Entry.toTokens).length = 4 * es.length := by
    induction es with
    | nil => rfl
    | cons e es ih =>
      rw [List.flatMap_cons, List.length_append, ih, List.length_cons, Nat.mul_succ, Nat.add_comm]
      rfl
  simp [nestedTokens, Entry.toTokens, hes]

/-- The tokens form a document. -/
theorem exists_ofTokens?_nested (first : Entry) (name : List Char) (es : List Entry) :
    ∃ doc, Document.ofTokens? (nestedTokens first name es) = some doc ∧
      doc.root = mappingNode (nestedParts first name es) := by
  rcases exists_run_node_mapping (15 * es.length + 45) false
    (r := { tokens := nestedTokens first name es, handles := standardHandles })
    forms_nestedParts (nestedTokens_eq first name es) with ⟨r', hr', hnode⟩
  -- fuel is counted in tokens, what the run takes in entries
  have hfuel : 4 * (nestedTokens first name es).length + 4 =
      15 * es.length + 45 + (nestedParts first name es).length + (es.length + 3) + 1 + 1 := by
    rw [length_nestedTokens]
    change _ = 15 * es.length + 45 + 2 + (es.length + 3) + 1 + 1
    omega
  unfold Document.ofTokens?
  rw [hfuel]
  simp only
  rw [run_stream rfl hnode hr']
  exact ⟨_, rfl, rfl⟩

end Read

/-! ## Values -/

namespace Value

open Read (Part ofEntry mappingNode nestedParts)

variable {doc : Document} {depth n : Nat} {done : List (Value × Value)} {es : List (Part × Value)}

theorem run_ofNode_scalar {plain : Bool} {s : List Char} {x : Value}
    (h : ofUntaggedScalar? plain s = some x) :
    (ofNode doc depth (.scalar none plain s)).run n = some (x, n) := by
  rw [ofNode.eq_def]
  simp [ofNodeWith, ofScalarNode?, h, StateT.run, StateT.lift]

def NamesItself (name : List Char) : Prop :=
  ofUntaggedScalar? true name = some (.text (String.ofList name))

structure Holds (doc : Document) (depth : Nat) (x : Part) (v : Value) : Prop where
  name : NamesItself x.name
  value {n : Nat} : (ofNode doc depth x.node).run n = some (v, n)

def named (name : List Char) (v : Value) : Value × Value :=
  (.text (String.ofList name), v)

theorem run_addEntries (hes : ∀ e ∈ es, Holds doc depth e.1 e.2)
    (hnodup : (es.map (·.1.name)).Nodup)
    (hdone : ∀ x ∈ done, ∀ e ∈ es, same (.text (String.ofList e.1.name)) x.1 = false) :
    (addEntries (ofNode doc depth) done (es.map (·.1.nodes))).run n =
      some (done.reverse ++ es.map (fun e => named e.1.name e.2), n) := by
  -- the entries done are general, and none of those to come has one of their names
  induction es generalizing done with
  | nil =>
    rw [List.map_nil, List.map_nil, List.append_nil]
    rfl
  | cons e es ih =>
    have he := hes e List.mem_cons_self
    have hany : done.any (fun x => same (.text (String.ofList e.1.name)) x.1) = false := by
      rw [List.any_eq_false]
      intro x hx
      rw [hdone x hx e List.mem_cons_self]
      decide
    rw [List.map_cons, List.nodup_cons] at hnodup
    -- the entry just done has another name than those to come
    have hdone' : ∀ x ∈ named e.1.name e.2 :: done, ∀ d ∈ es,
        same (.text (String.ofList d.1.name)) x.1 = false := by
      intro x hx d hd
      cases hx with
      | head =>
        have hne : d.1.name ≠ e.1.name := fun heq =>
          hnodup.1 (List.mem_map.mpr ⟨d, hd, heq⟩)
        simpa [named, same, String.ofList_inj] using hne
      | tail _ hx => exact hdone x hx d (List.mem_cons_of_mem e hd)
    have hrest := ih (fun d hd => hes d (List.mem_cons_of_mem e hd)) hnodup.2 hdone'
    rw [named] at hrest
    rw [List.map_cons, Part.nodes, addEntries]
    simp [run_ofNode_scalar he.name, he.value, hany, hrest, named]

theorem run_ofNode_mapping (es : List (Part × Value)) (hes : ∀ e ∈ es, Holds doc depth e.1 e.2)
    (hnodup : (es.map (·.1.name)).Nodup) :
    (ofNode doc (depth + 1) (mappingNode (es.map (·.1)))).run n =
      some (.mapping (es.map fun e => named e.1.name e.2), n) := by
  have hentries := @run_addEntries doc depth n [] es hes hnodup fun x h => nomatch h
  rw [mappingNode, List.map_map, ofNode.eq_def]
  simp [ofNodeWith, tagCollection, localTag?, Function.comp_def, hentries]

structure Means (e : Entry) (x : Value) : Prop where
  name : NamesItself e.name
  value : ofUntaggedScalar? e.plain e.text = some x

theorem Means.holds {e : Entry} {x : Value} (h : Means e x) : Holds doc depth (ofEntry e) x :=
  ⟨h.name, run_ofNode_scalar h.value⟩

variable {first e : Entry × Value} {entries : List (Entry × Value)}

def nestedValue (first : Entry × Value) (name : List Char) (entries : List (Entry × Value)) :
    Value :=
  .mapping [named first.1.name first.2,
    named name (.mapping (entries.map fun e => named e.1.name e.2))]

theorem run_ofNode_nested (hfirst : Means first.1 first.2) (hname : NamesItself name)
    (hne : name ≠ first.1.name) (hentries : ∀ e ∈ entries, Means e.1 e.2)
    (hnodup : (entries.map (·.1.name)).Nodup) :
    (ofNode doc (depth + 2) (mappingNode (nestedParts first.1 name (entries.map (·.1))))).run n =
      some (nestedValue first name entries, n) := by
  have hparts : ∀ x ∈ entries.map fun e => (ofEntry e.1, e.2), Holds doc depth x.1 x.2 := by
    intro x hx
    rcases List.mem_map.mp hx with ⟨e, he, rfl⟩
    exact (hentries e he).holds
  -- the inner mapping is itself the value of an entry of the outer one
  have hinner : Holds doc (depth + 1) ⟨name, Read.mappingTokens ((entries.map (·.1)).map ofEntry),
      mappingNode ((entries.map (·.1)).map ofEntry)⟩
      (.mapping (entries.map fun e => named e.1.name e.2)) := by
    refine ⟨hname, fun {n} => ?_⟩
    have hrun := run_ofNode_mapping (n := n) _ hparts (by rwa [List.map_map])
    rw [List.map_map, List.map_map] at hrun
    rw [List.map_map]
    exact hrun
  exact run_ofNode_mapping [(ofEntry first.1, first.2), (_, _)]
    (List.forall_mem_cons.mpr ⟨hfirst.holds, List.forall_mem_singleton.mpr hinner⟩)
    (by simpa [ofEntry] using Ne.symm hne)

/-- The text of a mapping whose second entry holds a mapping is read as its value. -/
theorem read?_nested (first : Entry × Value) (hreads : first.1.Reads 1)
    (hfirst : Means first.1 first.2) (hkey : Lexer.IsKey name) (hname : NamesItself name)
    (hne : name ≠ first.1.name)
    (hentries : ∀ d ∈ e :: entries, d.1.Reads 3 ∧ Means d.1 d.2)
    (hnodup : ((e :: entries).map (·.1.name)).Nodup) :
    read? (String.ofList (nested first.1 name ((e :: entries).map (·.1)))) =
      some (nestedValue first name (e :: entries)) := by
  have hlines : ∀ d ∈ e.1 :: entries.map (·.1), d.Reads 3 := by
    intro d hd
    rcases List.mem_map.mp (show d ∈ (e :: entries).map (·.1) from hd) with ⟨x, hx, rfl⟩
    exact (hentries x hx).1
  -- text to tokens, tokens to nodes, nodes to a value
  rcases Read.exists_ofTokens?_nested first.1 name ((e :: entries).map (·.1)) with
    ⟨doc, hdoc, hroot⟩
  have hvalue : ofDocument? doc = some (nestedValue first name (e :: entries)) := by
    rw [ofDocument?, hroot, run_ofNode_nested hfirst hname hne (fun d hd => (hentries d hd).2)
      hnodup]
    rfl
  rw [List.map_cons] at hdoc ⊢
  unfold read?
  simp only [String.toList_ofList, Lexer.isAllowed_nested hreads hkey hlines,
    Lexer.tokenize_nested hreads hkey hlines, hdoc, hvalue, Bool.not_true, Bool.false_eq_true,
    if_false, Option.bind_eq_bind, Option.bind_some]

end Value

end UnitGraph.Yaml
