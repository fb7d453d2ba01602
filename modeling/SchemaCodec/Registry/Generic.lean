import SchemaCodec.Descriptor
import SchemaCodec.Error

/-! # Generic definitions

A generic record is captured from a template whose type arguments are its parameters in order.
-/

namespace SchemaCodec

/-- A generic record: its name without arguments, the number of its parameters, and its members
over them. -/
structure Generic where
  base : String
  arity : Nat
  members : List (String × Descriptor)

namespace Generic

def inOrder (index : Nat) : List String → Bool
  | [] => true
  | name :: names => name = TypeName.parameter index && inOrder (index + 1) names

def ofTemplate (C : Catalog) (template : Descriptor) : Except Error Generic :=
  match template.members? C with
  | none => .error (.notSerializable template.name .genericNotRecord)
  | some members =>
    match TypeName.parseGeneric template.name with
    | none => .error (.notSerializable template.name .notGeneric)
    | some (base, args) =>
      if inOrder 0 args then .ok ⟨base, args.length, members⟩
      else .error (.notSerializable template.name .argumentsOutOfOrder)

end Generic

end SchemaCodec
