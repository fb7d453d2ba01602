import Mathlib.Data.List.Nodup
import SchemaCodec.Proofs.Plan.Decode
import SchemaCodec.Proofs.Plan.Encode
import SchemaCodec.Proofs.TypeName.Arrays
import SchemaCodec.Schema.Basic

/-! # What schemas mean

The bytes of a value and the value of a piece of bytes, read directly off the type names of a
schema: records are their children one after the other, sequences have a count before their items.
-/

namespace SchemaCodec.Schema

/-- The items of a sequence value, given the name of their type: those of a list, or the scalars of
an array. Where the items are to be scalars, an array must be of their kind. Scalars of another kind
cannot be written under the name anyway, so this decides only about an empty array. -/
inductive Items (element : String) : Value → List Value → Prop

  | list (items : List Value) : Items element (.list items) items

  | array {k : Scalar} (xs : List k.Carrier) :
      (∀ l, Primitive.ofSpelling? element = some (.scalar l) → l = k) →
      Items element (.array k xs) (Value.scalars k xs)

mutual

/-- The bytes that a value is written to under a type name. -/
inductive Written (S : Schema) : String → Value → List UInt8 → Prop

  | scalar {t : String} {k : Scalar} (x : k.Carrier) :
      Primitive.ofSpelling? t = some (.scalar k) → Written S t (.scalar k x) (k.toBytes x)

  | text {t s : String} : Primitive.ofSpelling? t = some .string →
      (Utf8.encode s).length ≤ maxCount →
      Written S t (.text s)
        (LittleEndian.split countSize (Utf8.encode s).length ++ Utf8.encode s)

  | sequence {t : String} {v : Value} {items : List Value} {bytes : List UInt8} :
      Items t v items → items.length ≤ maxCount → WrittenAll S t items bytes →
      Written S (TypeName.array t) v (LittleEndian.split countSize items.length ++ bytes)

  | record {node : Node} {other : String} {values : List (String × Value)}
      {bytes : List UInt8} : node ∈ S.types → WrittenMembers S node.children values bytes →
      Written S node.typeName (.record other values) bytes

inductive WrittenAll (S : Schema) : String → List Value → List UInt8 → Prop

  | nil {t : String} : WrittenAll S t [] []

  | cons {t : String} {v : Value} {others : List Value} {front back : List UInt8} :
      Written S t v front → WrittenAll S t others back →
      WrittenAll S t (v :: others) (front ++ back)

inductive WrittenMembers (S : Schema) :
    List Node → List (String × Value) → List UInt8 → Prop

  | nil {values : List (String × Value)} : WrittenMembers S [] values []

  | cons {child : Node} {others : List Node} {name : String} {values : List (String × Value)}
      {v : Value} {front back : List UInt8} : child.name = some name →
      Fields.get? name values = some v → Written S child.typeName v front →
      WrittenMembers S others values back →
      WrittenMembers S (child :: others) values (front ++ back)

end

mutual

/-- The value that a piece stands for under a type name, where counts are limited. -/
inductive Read (S : Schema) (limits : Limits) : String → List UInt8 → Value → Prop

  | scalar {t : String} {k : Scalar} {piece : List UInt8} {x : k.Carrier} :
      Primitive.ofSpelling? t = some (.scalar k) → k.Reads piece x →
      Read S limits t piece (.scalar k x)

  | text {t s : String} {front bytes : List UInt8} : Primitive.ofSpelling? t = some .string →
      IsCount bytes.length limits.maxText front → Utf8.decode bytes = .ok s →
      Read S limits t (front ++ bytes) (.text s)

  | array {t : String} {k : Scalar} {xs : List k.Carrier} {front : List UInt8}
      {pieces : List (List UInt8)} : Primitive.ofSpelling? t = some (.scalar k) →
      IsCount xs.length limits.maxSequence front → List.Forall₂ k.Reads pieces xs →
      Read S limits (TypeName.array t) (front ++ pieces.flatten) (.array k xs)

  | list {t : String} {items : List Value} {front bytes : List UInt8} :
      (∀ k, Primitive.ofSpelling? t ≠ some (.scalar k)) →
      IsCount items.length limits.maxSequence front → ReadAll S limits t bytes items →
      Read S limits (TypeName.array t) (front ++ bytes) (.list items)

  | record {node : Node} {bytes : List UInt8} {values : List (String × Value)} :
      node ∈ S.types → ReadMembers S limits node.children bytes values →
      Read S limits node.typeName bytes (.record node.typeName (Fields.ofList values))

inductive ReadAll (S : Schema) (limits : Limits) : String → List UInt8 → List Value → Prop

  | nil {t : String} : ReadAll S limits t [] []

  | cons {t : String} {v : Value} {others : List Value} {front back : List UInt8} :
      Read S limits t front v → ReadAll S limits t back others →
      ReadAll S limits t (front ++ back) (v :: others)

inductive ReadMembers (S : Schema) (limits : Limits) :
    List Node → List UInt8 → List (String × Value) → Prop

  | nil : ReadMembers S limits [] [] []

  | cons {child : Node} {others : List Node} {name : String} {v : Value}
      {values : List (String × Value)} {front back : List UInt8} : child.name = some name →
      Read S limits child.typeName front v → ReadMembers S limits others back values →
      ReadMembers S limits (child :: others) (front ++ back) ((name, v) :: values)

end

/-- The records of a schema have well-formed names, each its own. -/
structure Distinct (S : Schema) : Prop where
  wellFormed : ∀ node ∈ S.types, TypeName.WellFormed node.typeName
  unique : (S.types.map Node.typeName).Nodup

/-- A plan does what the schema means by a type name. -/
structure Simulates (S : Schema) (limits : Limits) (t : String) (plan : Plan) : Prop where
  written : ∀ v bytes, Written S t v bytes ↔ (plan.emit v).Yields bytes
  read : ∀ piece v, Read S limits t piece v ↔ Plan.Reads limits plan piece v

namespace Distinct

variable {S : Schema} (hS : Distinct S)

include hS

theorem node_eq {a b : Node} (ha : a ∈ S.types) (hb : b ∈ S.types)
    (same : a.typeName = b.typeName) : a = b :=
  List.inj_on_of_nodup_map hS.unique ha hb same

theorem not_spelled {node : Node} (mem : node ∈ S.types) {p : Primitive} :
    Primitive.ofSpelling? node.typeName ≠ some p := by
  rw [(hS.wellFormed node mem).foreign]
  exact fun h => nomatch h

theorem not_array {node : Node} (mem : node ∈ S.types) (t : String) :
    node.typeName ≠ TypeName.array t := by
  intro same
  have plain := TypeName.element?_atomic (hS.wellFormed node mem).toAtomic
  rw [same, TypeName.element?_array] at plain
  cases plain

end Distinct

theorem array_inj {t u : String} (h : TypeName.array t = TypeName.array u) : t = u := by
  have same := TypeName.element?_array t
  rw [h, TypeName.element?_array] at same
  exact (Option.some.inj same).symm

section Inversion

variable {S : Schema} {limits : Limits} {t : String} {v : Value} {bytes piece : List UInt8}

theorem Written.cases_on_name (h : Written S t v bytes) :
    (∃ k x, Primitive.ofSpelling? t = some (.scalar k) ∧ v = .scalar k x ∧
      bytes = k.toBytes x) ∨
    (∃ s, Primitive.ofSpelling? t = some .string ∧ v = .text s ∧
      (Utf8.encode s).length ≤ maxCount ∧
      bytes = LittleEndian.split countSize (Utf8.encode s).length ++ Utf8.encode s) ∨
    (∃ u items rest, t = TypeName.array u ∧ Items u v items ∧ items.length ≤ maxCount ∧
      WrittenAll S u items rest ∧
      bytes = LittleEndian.split countSize items.length ++ rest) ∨
    (∃ node other values, t = node.typeName ∧ node ∈ S.types ∧ v = .record other values ∧
      WrittenMembers S node.children values bytes) := by
  cases h with
  | scalar x spelled => exact .inl ⟨_, x, spelled, rfl, rfl⟩
  | text spelled small => exact .inr (.inl ⟨_, spelled, rfl, small, rfl⟩)
  | sequence items small all => exact .inr (.inr (.inl ⟨_, _, _, rfl, items, small, all, rfl⟩))
  | record mem members => exact .inr (.inr (.inr ⟨_, _, _, rfl, mem, rfl, members⟩))

theorem Read.cases_on_name (h : Read S limits t piece v) :
    (∃ k x, Primitive.ofSpelling? t = some (.scalar k) ∧ v = .scalar k x ∧ k.Reads piece x) ∨
    (∃ s front bytes, Primitive.ofSpelling? t = some .string ∧ v = .text s ∧
      piece = front ++ bytes ∧ IsCount bytes.length limits.maxText front ∧
      Utf8.decode bytes = .ok s) ∨
    (∃ u k xs front pieces, t = TypeName.array u ∧
      Primitive.ofSpelling? u = some (.scalar k) ∧ v = .array k xs ∧
      piece = front ++ pieces.flatten ∧ IsCount xs.length limits.maxSequence front ∧
      List.Forall₂ k.Reads pieces xs) ∨
    (∃ u items front bytes, t = TypeName.array u ∧
      (∀ k, Primitive.ofSpelling? u ≠ some (.scalar k)) ∧ v = .list items ∧
      piece = front ++ bytes ∧ IsCount items.length limits.maxSequence front ∧
      ReadAll S limits u bytes items) ∨
    (∃ node values, t = node.typeName ∧ node ∈ S.types ∧
      v = .record node.typeName (Fields.ofList values) ∧
      ReadMembers S limits node.children piece values) := by
  cases h with
  | scalar spelled read => exact .inl ⟨_, _, spelled, rfl, read⟩
  | text spelled count read => exact .inr (.inl ⟨_, _, _, spelled, rfl, rfl, count, read⟩)
  | array spelled count all =>
    exact .inr (.inr (.inl ⟨_, _, _, _, _, rfl, spelled, rfl, rfl, count, all⟩))
  | list other count all =>
    exact .inr (.inr (.inr (.inl ⟨_, _, _, _, rfl, other, rfl, rfl, count, all⟩)))
  | record mem members => exact .inr (.inr (.inr (.inr ⟨_, _, rfl, mem, rfl, members⟩)))

end Inversion

end SchemaCodec.Schema
