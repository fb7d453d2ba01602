import SchemaCodec.Program.Instance
import SchemaCodec.Program.MessageType

/-! # Catalogues

The records that a program declares. A catalogue tells for each record its fields, whether it can
be built from nothing, and where it came from.
-/

namespace SchemaCodec

/-- Where a record type came from. -/
inductive Origin
  /-- The program declares it. -/
  | declared
  /-- It was made from the children of a schema node. -/
  | synthesized
  /-- It is a generic record with its parameters bound. -/
  | instantiated
  deriving DecidableEq, Repr

/-- A field of a record; its type is over the parameters of the record, and its initial value may
depend on the initial values of the type arguments. -/
structure Field where
  name : String
  type : MessageType
  initial : List Instance → Instance
  skipped : Bool := false

/-- What a program says about a record. -/
structure Declaration where
  fields : List Field
  constructible : Bool := true
  origin : Origin := .declared

/-- The records of a program. No type leads to more than `capacity` records of different names. -/
structure Catalog where
  declaration : RecordId → Declaration
  capacity : Nat

namespace Catalog

variable (C : Catalog)

/-- The serialized fields of a record with their types at the given arguments. -/
def members (id : RecordId) (args : List MessageType) : List (String × MessageType) :=
  ((C.declaration id).fields.filter (!·.skipped)).map fun f => (f.name, f.type.subst args)

mutual

def initial : MessageType → Instance
  | .primitive (.scalar k) => .scalar k k.zero
  | .primitive .string => .text ""
  | .primitive .decimal => .decimal 0
  | .parameter _ => .placeholder
  | .sequence _ _ => .items []
  | .record id args =>
    let ofArgs := initials args
    .record ((C.declaration id).fields.map (·.initial ofArgs))

def initials : List MessageType → List Instance
  | [] => []
  | t :: ts => initial t :: initials ts

end

end Catalog

end SchemaCodec
