import UnitGraph.Count
import UnitGraph.Yaml.Node
import UnitGraph.Yaml.Resolve

/-! # Values

The value of a document has its scalars resolved and its aliases replaced by what they refer to. A
mapping must not have two equal keys. -/

namespace UnitGraph.Yaml

inductive Value
  | null
  | bool (value : Bool)
  | integer (value : Int)
  | float (value : Float)
  | text (value : String)
  | sequence (items : List Value)
  | mapping (entries : List (Value × Value))
  | tagged (tag : String) (value : Value)
  deriving Inhabited

namespace Value

def untagged : Value → Value
  | .tagged _ v => v.untagged
  | v => v

/-! ## Parts -/

/-- The value under a name in a mapping, where the key has no tag. -/
def get? (v : Value) (name : String) : Option Value :=
  match v.untagged with
  | .mapping entries => entries.findSome? fun
    | (.text key, value) => if key = name then some value else none
    | _ => none
  | _ => none

def asCount? (v : Value) : Option Count :=
  match v.untagged with
  | .integer n => if 0 ≤ n then Count.ofNat? n.toNat else none
  | _ => none

def asFloat? (v : Value) : Option Float :=
  match v.untagged with
  | .integer n => some (Float.ofInt n)
  | .float x => some x
  | _ => none

def asText? (v : Value) : Option String :=
  match v.untagged with
  | .text s => some s
  | _ => none

/-- The entries of a mapping by what their keys name. No key may be without a meaning, and no two
may mean the same. Null is a mapping without entries. -/
def fields? {ι : Type} [DecidableEq ι] (meaning : String → Option ι) (v : Value) :
    Option (List (ι × Value)) :=
  match v.untagged with
  | .null => some []
  | .mapping entries => do
    let fields ← entries.mapM fun (key, value) => do
      return (← meaning (← key.asText?), value)
    if (fields.map Prod.fst).Nodup then some fields else none
  | _ => none

/-! ## Equality -/

/-- Equal as numbers, where no number equals itself. -/
def sameFloat (x y : Float) : Bool :=
  (x.isNaN && y.isNaN) || x == y

/-- A tag without the exclamation mark at its start, unless it is nothing else. -/
def tagName (tag : String) : List Char :=
  match tag.toList with
  | '!' :: c :: s => c :: s
  | s => s

mutual

/-- Equality of keys: integers differ from floats, and entries of mappings come in any order. -/
def same : Value → Value → Bool
  | .null, .null => true
  | .bool a, .bool b => a = b
  | .integer a, .integer b => a = b
  | .float a, .float b => sameFloat a b
  | .text a, .text b => a = b
  | .sequence as, .sequence bs => sameItems as bs
  | .mapping as, .mapping bs => as.length = bs.length && entriesIn as bs
  | .tagged s a, .tagged t b => tagName s = tagName t && same a b
  | _, _ => false

def sameItems : List Value → List Value → Bool
  | [], [] => true
  | a :: as, b :: bs => same a b && sameItems as bs
  | _, _ => false

def entriesIn : List (Value × Value) → List (Value × Value) → Bool
  | [], _ => true
  | (k, v) :: as, bs => bs.any (fun (k', v') => same k k' && same v v') && entriesIn as bs

end

/-! ## From nodes -/

def ofScalar? : Scalar → Option Value
  | .null => some .null
  | .bool b => some (.bool b)
  | .integer n => if Int64.minValue.toInt ≤ n ∧ n < UInt64.size then some (.integer n) else none
  | .float x => some (.float x)
  | .text s => some (.text (String.ofList s))

/-- A tag that means something to the document only: what follows its exclamation mark, if that is
text. A single exclamation mark is such a tag too. -/
def localTag? (tag : Option TagBytes) : Option String :=
  match tag with
  | some [33] => some "!"
  | some (33 :: name) => String.fromUTF8? (ByteArray.mk name.toArray)
  | _ => none

def coreTag (type : String) : TagBytes :=
  ("tag:yaml.org,2002:" ++ type).toUTF8.toList

/-- The value of a scalar by its tag: the tags of basic types demand their spelling, any other one
that is not local makes text. -/
def ofTaggedScalar? (tag : TagBytes) (plain : Bool) (s : List Char) : Option Value :=
  if tag = coreTag "bool" then (Scalar.bool? s).map .bool
  else if tag = coreTag "int" then (Scalar.integer? s).bind fun n => ofScalar? (.integer n)
  else if tag = coreTag "float" then (Scalar.float? s).map .float
  else if tag = coreTag "null" then if Scalar.isNull s then some .null else none
  else if tag.head? = some 33 && plain then ofScalar? (Scalar.resolve s)
  else some (.text (String.ofList s))

def ofUntaggedScalar? (plain : Bool) (s : List Char) : Option Value :=
  if plain then ofScalar? (Scalar.resolve s) else some (.text (String.ofList s))

def ofScalarNode? (tag : Option TagBytes) (plain : Bool) (s : List Char) : Option Value :=
  match tag with
  | none => ofUntaggedScalar? plain s
  | some bytes =>
    match localTag? tag with
    | some name => (ofUntaggedScalar? plain s).map (.tagged name)
    | none => ofTaggedScalar? bytes plain s

/-- Replaces aliases, of which a limited number may still be followed. -/
abbrev Expand := StateT Nat Option

def follow (doc : Document) (slot : Nat) : Expand Node := do
  let left ← get
  if left = 0 then failure
  set (left - 1)
  doc.anchored slot

def tagCollection (tag : Option TagBytes) (v : Value) : Value :=
  match localTag? tag with
  | some name => .tagged name v
  | none => v

def addEntries (expand : Node → Expand Value) :
    List (Value × Value) → List (Node × Node) → Expand (List (Value × Value))
  | done, [] => return done.reverse
  | done, (k, v) :: rest => do
    let key ← expand k
    if done.any (same key ·.1) then failure
    let value ← expand v
    addEntries expand ((key, value) :: done) rest

def ofNodeWith (expand : Option (Node → Expand Value)) : Node → Expand Value
  | .scalar tag plain s => StateT.lift (ofScalarNode? tag plain s)
  | .sequence tag items => do
    let expand ← StateT.lift expand
    return tagCollection tag (.sequence (← items.mapM expand))
  | .mapping tag entries => do
    let expand ← StateT.lift expand
    return tagCollection tag (.mapping (← addEntries expand [] entries))
  | .alias _ => failure

def ofNode (doc : Document) : (depth : Nat) → Node → Expand Value
  | depth, .alias slot => do
    -- The node of an alias is read anew at the depth where the alias stands.
    let n ← follow doc slot
    ofNodeWith (match depth with
      | 0 => none
      | depth + 1 => some (ofNode doc depth)) n
  | depth, n => ofNodeWith (match depth with
      | 0 => none
      | depth + 1 => some (ofNode doc depth)) n

/-- The value of a document. Collections are nested at most 128 deep, and aliases are followed at
most a hundred times as often as there are parts of the document. -/
def ofDocument? (doc : Document) : Option Value :=
  ((ofNode doc 128 doc.root).run (100 * doc.size)).map Prod.fst

def read? (text : String) : Option Value := do
  let s := text.toList
  if !s.all isAllowed then none
  let tokens ← tokenize s
  ofDocument? (← Document.ofTokens? tokens.toList)

end Value

end UnitGraph.Yaml
