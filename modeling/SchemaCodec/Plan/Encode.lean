import SchemaCodec.Plan.Basic
import SchemaCodec.Plan.Emission

/-! # Encoding

What a plan says for a value. Sequences may come in either form; a plan for bulk coding takes an
array of its own kind in one piece and a list element by element.
-/

namespace SchemaCodec.Plan

def emitCount (count : Nat) : Emission :=
  if count ≤ maxCount then .piece (LittleEndian.split countSize count)
  else .fail (.malformed (.countTooLarge count))

def emitScalar (k : Scalar) : Value → Emission
  | .scalar l x => if l = k then .piece (l.toBytes x) else .fail (.mismatch k.name (.scalar l x))
  | v => .fail (.mismatch k.name v)

def emitText : Value → Emission
  | .text s =>
    let bytes := Utf8.encode s
    emitCount bytes.length ++ .piece bytes
  | v => .fail (.mismatch (Primitive.name .string) v)

def emitBulk (k : Scalar) : Value → Emission
  | .array l xs =>
    if l = k then emitCount xs.length ++ .piece (l.runBytes xs)
    else .fail (.mismatch (Value.arrayOf k) (.array l xs))
  | .list items => emitCount items.length ++ .each (emitScalar k) items
  | v => .fail (.mismatch (Value.arrayOf k) v)

mutual

def emit : Plan → Value → Emission
  | scalar k, v => emitScalar k v
  | text, v => emitText v
  | bulk k, v => emitBulk k v
  | elements element, v =>
    match v.elements? with
    | some items => emitCount items.length ++ .each (emit element) items
    | none => .fail (.mismatch "sequence" v)
  | record typeName fields, v =>
    match v with
    | .record _ values => emitFields typeName fields values
    | v => .fail (.mismatch (Value.recordOf typeName) v)

def emitFields (typeName : String) : List (String × Plan) → List (String × Value) → Emission
  | [], _ => .empty
  | (name, plan) :: rest, values =>
    match Fields.get? name values with
    | some v => emit plan v ++ emitFields typeName rest values
    | none => .fail (.memberMissing typeName name)

end

def encode (plan : Plan) (v : Value) : EStateM Error Sink Unit := (plan.emit v).writeTo

example : (emit (.bulk .int16) (.array .int16 [1, -1])).bytes = [2, 0, 0, 0, 1, 0, 0xFF, 0xFF] := by
  decide

end SchemaCodec.Plan
