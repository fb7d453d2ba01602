import SchemaCodec.Primitive
import SchemaCodec.Value.Fields

/-! # Values

What codecs read and write: scalars, text, sequences in two forms, and records. An array holds
scalars of one kind; a list holds any values. A record carries the name of its type.
-/

namespace SchemaCodec

inductive Value
  | scalar (k : Scalar) (x : k.Carrier)
  | text (s : String)
  | array (k : Scalar) (xs : List k.Carrier)
  | list (items : List Value)
  | record (typeName : String) (fields : List (String × Value))

@[induction_eliminator]
theorem Value.induct {motive : Value → Prop}
    (scalar : ∀ k x, motive (.scalar k x)) (text : ∀ s, motive (.text s))
    (array : ∀ k xs, motive (.array k xs))
    (list : ∀ items, (∀ v ∈ items, motive v) → motive (.list items))
    (record : ∀ typeName fields, (∀ p ∈ fields, motive p.2) → motive (.record typeName fields))
    (v : Value) : motive v :=
  Value.rec (motive_1 := motive) (motive_2 := fun items => ∀ v ∈ items, motive v)
    (motive_3 := fun fields => ∀ p ∈ fields, motive p.2) (motive_4 := fun p => motive p.2)
    scalar text array list record
    (List.forall_mem_nil _) (fun _ _ head tail => List.forall_mem_cons.mpr ⟨head, tail⟩)
    (List.forall_mem_nil _) (fun _ _ head tail => List.forall_mem_cons.mpr ⟨head, tail⟩)
    (fun _ _ h => h) v

structure Record where
  typeName : String
  fields : List (String × Value)

namespace Record

def empty (typeName : String) : Record := ⟨typeName, []⟩

def get? (r : Record) (name : String) : Option Value := Fields.get? name r.fields

def insert (r : Record) (name : String) (v : Value) : Record :=
  ⟨r.typeName, Fields.insert name v r.fields⟩

def erase (r : Record) (name : String) : Record := ⟨r.typeName, Fields.erase name r.fields⟩

def replace? (r : Record) (name : String) (v : Value) : Option Record :=
  (r.get? name).map fun _ => r.insert name v

def size (r : Record) : Nat := r.fields.length

def isEmpty (r : Record) : Bool := r.fields.isEmpty

end Record

namespace Value

def ofRecord (r : Record) : Value := .record r.typeName r.fields

def scalar? (k : Scalar) : Value → Option k.Carrier
  | scalar l x => if h : l = k then some (h ▸ x) else none
  | _ => none

def text? : Value → Option String
  | text s => some s
  | _ => none

def array? : Value → Option ((k : Scalar) × List k.Carrier)
  | array k xs => some ⟨k, xs⟩
  | _ => none

def items? : Value → Option (List Value)
  | list items => some items
  | _ => none

def record? : Value → Option Record
  | record typeName fields => some ⟨typeName, fields⟩
  | _ => none

def scalars (k : Scalar) (xs : List k.Carrier) : List Value := xs.map (scalar k)

def length? : Value → Option Nat
  | array _ xs => some xs.length
  | list items => some items.length
  | _ => none

def elements? : Value → Option (List Value)
  | array k xs => some (scalars k xs)
  | list items => some items
  | _ => none

def arrayOf (k : Scalar) : String := k.name ++ " array"

def recordOf (typeName : String) : String := "record " ++ typeName

def describe : Value → String
  | scalar k _ => k.name
  | text _ => Primitive.name .string
  | array k _ => arrayOf k
  | list _ => "list"
  | record typeName _ => recordOf typeName

def field? (name : String) (v : Value) : Option Value := v.record?.bind (·.get? name)

theorem length?_eq_map_elements? (v : Value) : v.length? = v.elements?.map List.length := by
  cases v <;> simp [length?, elements?, scalars]

end Value

end SchemaCodec
