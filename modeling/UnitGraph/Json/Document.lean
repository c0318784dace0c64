import UnitGraph.Json.Quoted

/-! # Writing JSON

Documents made of natural numbers, strings, booleans, lists and objects, written without any space
or spread over indented lines. -/

namespace UnitGraph.Json

inductive Document
  | null
  | bool (value : Bool)
  | number (value : Nat)
  | text (value : String)
  | array (items : List Document)
  | object (members : List (String × Document))
  deriving Inhabited

namespace Document

def ofOption {α : Type} (write : α → Document) : Option α → Document
  | none => .null
  | some a => write a

def ofSome (members : List (String × Option Document)) : Document :=
  .object (members.filterMap fun (name, value) => value.map (name, ·))

mutual

def compact : Document → List Char
  | .null => "null".toList
  | .bool true => "true".toList
  | .bool false => "false".toList
  | .number n => Text.Numeral.digits 10 n
  | .text s => Quoted.encode s
  | .array [] => ['[', ']']
  | .array (d :: ds) => '[' :: compact d ++ compactItems ds
  | .object [] => ['{', '}']
  | .object ((name, d) :: ms) => '{' :: Quoted.encode name ++ ':' :: compact d ++ compactMembers ms

def compactItems : List Document → List Char
  | [] => [']']
  | d :: ds => ',' :: compact d ++ compactItems ds

def compactMembers : List (String × Document) → List Char
  | [] => ['}']
  | (name, d) :: ms => ',' :: Quoted.encode name ++ ':' :: compact d ++ compactMembers ms

end

def newline (depth : Nat) : List Char :=
  '\n' :: List.replicate (2 * depth) ' '

mutual

/-- The document with a line for every item and member; empty brackets stay together. -/
def pretty (depth : Nat) : Document → List Char
  | .null => "null".toList
  | .bool true => "true".toList
  | .bool false => "false".toList
  | .number n => Text.Numeral.digits 10 n
  | .text s => Quoted.encode s
  | .array [] => ['[', ']']
  | .array (d :: ds) =>
    '[' :: newline (depth + 1) ++ pretty (depth + 1) d ++ prettyItems depth ds
  | .object [] => ['{', '}']
  | .object ((name, d) :: ms) =>
    '{' :: newline (depth + 1) ++ Quoted.encode name ++ ':' :: ' ' :: pretty (depth + 1) d
      ++ prettyMembers depth ms

def prettyItems (depth : Nat) : List Document → List Char
  | [] => newline depth ++ [']']
  | d :: ds => ',' :: newline (depth + 1) ++ pretty (depth + 1) d ++ prettyItems depth ds

def prettyMembers (depth : Nat) : List (String × Document) → List Char
  | [] => newline depth ++ ['}']
  | (name, d) :: ms =>
    ',' :: newline (depth + 1) ++ Quoted.encode name ++ ':' :: ' ' :: pretty (depth + 1) d
      ++ prettyMembers depth ms

end

def render (d : Document) : String :=
  String.ofList d.compact

def renderPretty (d : Document) : String :=
  String.ofList (d.pretty 0)

end Document

end UnitGraph.Json
