import SchemaCodec.Error
import SchemaCodec.Json.Printer
import SchemaCodec.Json.Reader
import SchemaCodec.Schema.Basic

/-! # Schema documents

Schemas as JSON. An absent name and an empty list of children are left out. When a document is
read, an object may have further members, an array may list the parts in order instead, and arrays
and objects may nest at most 127 deep; what further members hold is not looked into.
-/

namespace SchemaCodec

/-- How deep the arrays and objects of a document may nest. -/
def documentDepth : Nat := 127

namespace Node

mutual

def toJson : Node → Json
  | mk name typeName children =>
    .object <|
      (match name with
        | some n => [(Json.pieces "name", Json.ofString n)]
        | none => []) ++
      [(Json.pieces "type_name", Json.ofString typeName)] ++
      (match toJsons children with
        | [] => []
        | c :: cs => [(Json.pieces "children", .array (c :: cs))])

def toJsons : List Node → List Json
  | [] => []
  | n :: ns => toJson n :: toJsons ns

end

end Node

namespace Json

def asText? : Json → Option String
  | string ps => text? ps
  | _ => none

def asName? : Json → Option (Option String)
  | null => some none
  | string ps => some <$> text? ps
  | _ => none

def asInt64? : Json → Option Int64
  | number spelling =>
    ((int? spelling).filter fun n => -9223372036854775808 ≤ n ∧ n < 9223372036854775808).map
      Int64.ofInt
  | _ => none

def fill {α : Type} (part : Option α) (x : Option α) : Option (Option α) :=
  match part, x with
  | none, some x => some (some x)
  | _, _ => none

/-- A value with the nodes that it holds if it is read as a list of them, at a depth. -/
structure Reading where
  value : Json
  nodes? : Nat → Option (List Node)

structure NodeDraft where
  name : Option (Option String)
  typeName : Option String
  children : Option (List Node)

namespace NodeDraft

def empty : NodeDraft := ⟨none, none, none⟩

/-- Takes one member of an object in; none of a node's own may come twice. -/
def take (depth : Nat) (d : NodeDraft) (key : String) (r : Reading) : Option NodeDraft :=
  if key = "name" then do
    return { d with name := ← fill d.name (asName? r.value) }
  else if key = "type_name" then do
    return { d with typeName := ← fill d.typeName (asText? r.value) }
  else if key = "children" then do
    return { d with children := ← fill d.children (r.nodes? depth) }
  else some d

def finish (d : NodeDraft) : Option Node :=
  match d.typeName with
  | none => none
  | some typeName => some (Node.mk (d.name.getD none) typeName (d.children.getD []))

end NodeDraft

structure SchemaDraft where
  typeName : Option String
  fingerprint : Option Int64
  types : Option (List Node)

namespace SchemaDraft

def empty : SchemaDraft := ⟨none, none, none⟩

/-- Takes one member of an object in; none of a schema's own may come twice. -/
def take (depth : Nat) (d : SchemaDraft) (key : String) (r : Reading) : Option SchemaDraft :=
  if key = "type_name" then do
    return { d with typeName := ← fill d.typeName (asText? r.value) }
  else if key = "fingerprint" then do
    return { d with fingerprint := ← fill d.fingerprint (asInt64? r.value) }
  else if key = "types" then do
    return { d with types := ← fill d.types (r.nodes? depth) }
  else some d

def finish (d : SchemaDraft) : Option Schema := do
  return ⟨← d.typeName, ← d.fingerprint, ← d.types⟩

end SchemaDraft

def takeAll {δ : Type} (take : δ → String → Reading → Option δ) :
    δ → List (List Piece × Reading) → Option δ
  | d, [] => some d
  | d, (key, r) :: rest =>
    match text? key with
    | none => none
    | some key =>
      match take d key r with
      | none => none
      | some d => takeAll take d rest

def nodeOfItems (depth : Nat) : List Reading → Option Node
  | [name, typeName] => do
    return Node.mk (← asName? name.value) (← asText? typeName.value) []
  | [name, typeName, children] => do
    return Node.mk (← asName? name.value) (← asText? typeName.value) (← children.nodes? depth)
  | _ => none

def schemaOfItems (depth : Nat) : List Reading → Option Schema
  | [typeName, fingerprint, types] => do
    return ⟨← asText? typeName.value, ← asInt64? fingerprint.value, ← types.nodes? depth⟩
  | _ => none

mutual

/-- The node of a value where arrays and objects may still nest `depth` deep. -/
def node? : Json → Nat → Option Node
  | object members, depth + 1 =>
    (takeAll (NodeDraft.take depth) .empty (memberReadings members)).bind (·.finish)
  | array items, depth + 1 => nodeOfItems depth (itemReadings items)
  | _, _ => none

def nodes? : Json → Nat → Option (List Node)
  | array items, depth + 1 => nodesOf items depth
  | _, _ => none

def nodesOf : List Json → Nat → Option (List Node)
  | [], _ => some []
  | item :: items, depth =>
    match node? item depth with
    | none => none
    | some n => (nodesOf items depth).map (n :: ·)

def itemReadings : List Json → List Reading
  | [] => []
  | item :: items => ⟨item, nodes? item⟩ :: itemReadings items

def memberReadings : List (List Piece × Json) → List (List Piece × Reading)
  | [] => []
  | (key, value) :: rest => (key, ⟨value, nodes? value⟩) :: memberReadings rest

end

def schema? (depth : Nat) (v : Json) : Option Schema :=
  match depth, v with
  | depth + 1, object members =>
    (takeAll (SchemaDraft.take depth) .empty (memberReadings members)).bind (·.finish)
  | depth + 1, array items => schemaOfItems depth (itemReadings items)
  | _, _ => none

end Json

namespace Schema

def toJson (s : Schema) : Json :=
  .object
    [(Json.pieces "type_name", Json.ofString s.typeName),
     (Json.pieces "fingerprint", Json.ofInt s.fingerprint.toInt),
     (Json.pieces "types", .array (Node.toJsons s.types))]

def document (layout : Json.Layout) (s : Schema) : String := s.toJson.render layout

def ofDocument (text : String) : Except Error Schema :=
  match (Json.parse? text).bind (Json.schema? documentDepth) with
  | some s => .ok s
  | none => .error (.malformed .schemaDocument)

end Schema

example : (Schema.ofDocument "[\"T\", -3, []]").toOption = some ⟨"T", -3, []⟩ := by
  decide +kernel

end SchemaCodec
