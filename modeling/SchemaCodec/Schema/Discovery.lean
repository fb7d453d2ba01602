import SchemaCodec.Descriptor
import SchemaCodec.Error

/-! # Discovery

The walk that finds every record a type leads to, through members and any nesting of sequences. A
record is noted before its members are visited, so records that lead back to themselves end the
walk as well; a record whose name was noted before is passed over.
-/

namespace SchemaCodec.Discovery

/-- The types of members must differ in name; each is visited in turn. -/
def visitMembers (visit : Descriptor → List Descriptor → Except Error (List Descriptor))
    (owner : String) : List String → List (String × Descriptor) → List Descriptor →
    Except Error (List Descriptor)
  | _, [], found => .ok found
  | seen, (name, d) :: rest, found =>
    if name ∈ seen then .error (.notSerializable owner (.duplicateMember name))
    else
      match visit d found with
      | .error e => .error e
      | .ok found => visitMembers visit owner (name :: seen) rest found

/-- Adds the records that a type leads to, in the order in which they are met; at most `budget`
records may enclose each other. -/
def visit (C : Catalog) : Nat → Descriptor → List Descriptor → Except Error (List Descriptor)
  | budget, d, found =>
    match d.innermost with
    | .primitive .decimal => .error (.notSerializable (Primitive.name .decimal) .decimal)
    | .primitive _ => .ok found
    | .parameter i => .error (.notSerializable (TypeName.parameter i) .unboundParameter)
    | .sequence _ _ => .ok found
    | record =>
      if found.any (·.name = record.name) then .ok found
      else if !record.constructible C then .error (.notSerializable record.name .noDefault)
      else
        match budget with
        | 0 => .error (.unbounded record.name)
        | budget + 1 =>
          visitMembers (visit C budget) record.name [] ((record.members? C).getD [])
            (found ++ [record])

def records (C : Catalog) (root : Descriptor) : Except Error (List Descriptor) :=
  visit C C.capacity root []

end SchemaCodec.Discovery
