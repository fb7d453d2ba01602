import SchemaCodec.Scalar.Basic

/-! # Instances

The values that a program holds for its types. A record instance has every field in the order of
declaration, also those that are never serialized.
-/

namespace SchemaCodec

inductive Instance
  | scalar (k : Scalar) (x : k.Carrier)
  | text (s : String)
  /-- A decimal, as its 128 bits. -/
  | decimal (bits : BitVec 128)
  /-- The only value of a generic parameter. -/
  | placeholder
  | items (xs : List Instance)
  | record (fields : List Instance)

@[induction_eliminator]
theorem Instance.induct {motive : Instance → Prop}
    (scalar : ∀ k x, motive (.scalar k x)) (text : ∀ s, motive (.text s))
    (decimal : ∀ bits, motive (.decimal bits)) (placeholder : motive .placeholder)
    (items : ∀ xs, (∀ x ∈ xs, motive x) → motive (.items xs))
    (record : ∀ fields, (∀ x ∈ fields, motive x) → motive (.record fields))
    (x : Instance) : motive x :=
  Instance.rec (motive_1 := motive) (motive_2 := fun xs => ∀ x ∈ xs, motive x)
    scalar text decimal placeholder items record
    (List.forall_mem_nil _) (fun _ _ head tail => List.forall_mem_cons.mpr ⟨head, tail⟩) x

def Scalar.zero : (k : Scalar) → k.Carrier
  | boolean => false
  | int8 => 0
  | int16 => 0
  | int32 => 0
  | int64 => 0
  | uint8 => 0
  | uint16 => 0
  | uint32 => 0
  | uint64 => 0
  | float32 => ⟨0⟩
  | float64 => ⟨0⟩
  | char => '\x00'

namespace Instance

def scalar? (k : Scalar) : Instance → Option k.Carrier
  | scalar l x => if h : l = k then some (h ▸ x) else none
  | _ => none

end Instance

end SchemaCodec
