import SchemaCodec.Error
import SchemaCodec.Program.Catalog

/-! # Conversion

Instances of the program's types become values and come back. A sequence is read from either form
of sequence value; arrays are written for contiguous storage of scalars and lists otherwise. A
record value need not have every field: what it lacks keeps its initial value.
-/

namespace SchemaCodec

def elementsOfArray (element : MessageType) (l : Scalar) (xs : List l.Carrier) :
    Except Error (List Instance) :=
  match element with
  | .primitive (.scalar k) =>
    if l = k then .ok (xs.map (.scalar l))
    else .error (.typeMismatch (Value.arrayOf k) (Value.arrayOf l))
  | element => .error (.typeMismatch element.name (Value.arrayOf l))

namespace Catalog

variable (C : Catalog)

/-- The fields of an instance: each serialized field that can be read is read, and every other one
keeps its initial value. -/
def assign (readers : List (String × (MessageType → Except Error Instance)))
    (args : List MessageType) : List Field → Except Error (List Instance)
  | [] => .ok []
  | f :: fs => do
    let x ← match if f.skipped then none else Fields.get? f.name readers with
      | some read => read (f.type.subst args)
      | none => .ok (f.initial (C.initials args))
    let xs ← assign readers args fs
    return x :: xs

mutual

def ofValue : Value → MessageType → Except Error Instance
  | .scalar l x, .primitive (.scalar k) =>
    if l = k then .ok (.scalar l x) else .error (.mismatch k.name (.scalar l x))
  | .text s, .primitive .string => .ok (.text s)
  | _, .primitive .decimal => .error (.unsupportedPrimitive (Primitive.name .decimal))
  | v, .primitive p => .error (.mismatch p.name v)
  | _, .parameter i => .error (.notSerializable (TypeName.parameter i) .unboundParameter)
  | .array l xs, .sequence _ element => .items <$> elementsOfArray element l xs
  | .list vs, .sequence _ element => .items <$> ofValues vs element
  | v, .sequence _ element => .error (.mismatch (TypeName.array element.name) v)
  | .record _ fields, .record id args =>
    .record <$> C.assign (fieldReaders fields) args (C.declaration id).fields
  | v, .record _ _ => .error (.mismatch "record" v)

def ofValues : List Value → MessageType → Except Error (List Instance)
  | [], _ => .ok []
  | v :: vs, t => do
    let x ← ofValue v t
    let xs ← ofValues vs t
    return x :: xs

def fieldReaders : List (String × Value) → List (String × (MessageType → Except Error Instance))
  | [] => []
  | (name, v) :: rest => (name, ofValue v) :: fieldReaders rest

end

def illTyped (t : MessageType) : Error := .typeMismatch t.name "an instance of another type"

mutual

def toValue : Instance → MessageType → Except Error Value
  | .scalar k x, _ => .ok (.scalar k x)
  | .text s, _ => .ok (.text s)
  | .decimal _, _ => .error (.unsupportedPrimitive (Primitive.name .decimal))
  | .placeholder, t => .error (.notSerializable t.name .unboundParameter)
  | .items xs, .sequence storage element =>
    match storage.container, element with
    | .array, .primitive (.scalar k) =>
      match xs.mapM (Instance.scalar? k) with
      | some ys => .ok (.array k ys)
      | none => .error (illTyped (.sequence storage element))
    | _, element => .list <$> toValues xs element
  | .record xs, .record id args =>
    (fun fields => .record (MessageType.record id args).name (Fields.ofList fields)) <$>
      toFields xs (C.declaration id).fields args
  | _, t => .error (illTyped t)

def toValues : List Instance → MessageType → Except Error (List Value)
  | [], _ => .ok []
  | x :: xs, t => do
    let v ← toValue x t
    let vs ← toValues xs t
    return v :: vs

def toFields : List Instance → List Field → List MessageType → Except Error (List (String × Value))
  | x :: xs, f :: fs, args =>
    if f.skipped then toFields xs fs args
    else do
      let v ← toValue x (f.type.subst args)
      let vs ← toFields xs fs args
      return (f.name, v) :: vs
  | _, _, _ => .ok []

end

end Catalog

end SchemaCodec
