import SchemaCodec.Descriptor
import SchemaCodec.Error
import SchemaCodec.Plan.Basic
import SchemaCodec.Schema.Basic

/-! # Choosing plans

A plan is chosen from two sides that must agree: the type name in a schema, and what is known
about the type. Records are coded by the plans compiled for them before.
-/

namespace SchemaCodec

namespace Plan

variable (compiled : String → Option Plan) (owner : String)

def disagreement (typeName : String) (d : Descriptor) : Error := .typeMismatch typeName d.name

def ofPrimitive (typeName : String) : Primitive → Except Error Plan
  | .scalar k => .ok (scalar k)
  | .string => .ok text
  | .decimal => .error (.unsupportedPrimitive typeName)

def chooseBase (d : Descriptor) (typeName : String) : Except Error Plan :=
  match Primitive.ofSpelling? typeName with
  | some p =>
    if d.primitive? = some p then ofPrimitive typeName p
    else .error (disagreement typeName d)
  | none =>
    if d.isRecord ∧ d.name = typeName then
      match compiled typeName with
      | some plan => .ok plan
      | none => .error (.orderingViolation owner typeName)
    else .error (disagreement typeName d)

/-- The kind of scalar whose arrays are coded in one piece, if both sides name one. -/
def bulkKind? (container : Container) (element : Descriptor) (elementName : String) :
    Option Scalar :=
  match container, element with
  | .array, .primitive (.scalar k) =>
    if Primitive.ofSpelling? elementName = some (.scalar k) then some k else none
  | _, _ => none

def choose : Descriptor → String → Except Error Plan
  | .sequence container element, typeName =>
    match TypeName.element? typeName with
    | some elementName =>
      match bulkKind? container element elementName with
      | some k => .ok (bulk k)
      | none => elements <$> choose element elementName
    | none => chooseBase compiled owner (.sequence container element) typeName
  | d, typeName =>
    match TypeName.element? typeName with
    | some _ => .error (disagreement typeName d)
    | none => chooseBase compiled owner d typeName

/-- The plans of the children of a node, looked up among the members of its type. -/
def chooseFields (members : List (String × Descriptor)) :
    List Node → Except Error (List (String × Plan))
  | [] => .ok []
  | child :: others =>
    match child.name with
    | none => .error (.malformed (.unnamedChild owner))
    | some name =>
      match members.lookup name with
      | none => .error (.memberMissing owner name)
      | some d => do
        let plan ← choose compiled owner d child.typeName
        let plans ← chooseFields members others
        return (name, plan) :: plans

/-- The plan of a record from its node and its type. -/
def ofNode (C : Catalog) (node : Node) (d : Descriptor) : Except Error Plan :=
  match d.members? C with
  | none => .error (.typeMismatch (Value.recordOf node.typeName) d.name)
  | some members =>
    record node.typeName <$> chooseFields compiled node.typeName members node.children

end Plan

end SchemaCodec
