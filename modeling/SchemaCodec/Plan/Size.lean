import SchemaCodec.Error
import SchemaCodec.Plan.Basic

/-! # Exact size

The number of bytes of a value's encoding, found without encoding it. Scalars and the elements of
bulk sequences are not looked at.
-/

namespace SchemaCodec.Plan

def runSize (k : Scalar) (expected : String) (v : Value) : Except Error Nat :=
  match v.length? with
  | some count => .ok (countSize + count * k.width)
  | none => .error (.mismatch expected v)

def sumSizes (size : Value → Except Error Nat) : List Value → Except Error Nat
  | [] => .ok 0
  | v :: vs => do
    let n ← size v
    let total ← sumSizes size vs
    return n + total

mutual

def exactSize : Plan → Value → Except Error Nat
  | scalar k, _ => .ok k.width
  | text, .text s => .ok (countSize + (Utf8.encode s).length)
  | text, v => .error (.mismatch (Primitive.name .string) v)
  | bulk k, v => runSize k (Value.arrayOf k) v
  | elements (scalar k), v => runSize k "sequence" v
  | elements element, v =>
    match v.elements? with
    | some items => (countSize + ·) <$> sumSizes (exactSize element) items
    | none => .error (.mismatch "sequence" v)
  | record typeName fields, .record _ values => fieldSizes typeName fields values
  | record typeName _, v => .error (.mismatch (Value.recordOf typeName) v)

def fieldSizes (typeName : String) :
    List (String × Plan) → List (String × Value) → Except Error Nat
  | [], _ => .ok 0
  | (name, plan) :: rest, values =>
    match Fields.get? name values with
    | some v => do
      let n ← exactSize plan v
      let total ← fieldSizes typeName rest values
      return n + total
    | none => .error (.memberMissing typeName name)

end

end SchemaCodec.Plan
