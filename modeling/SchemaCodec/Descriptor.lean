import SchemaCodec.Program.Catalog

/-! # Descriptors

What is known about a type while the program runs. The record types of the program are looked up
in its catalogue, so that a record may lead back to itself; records that are made at run time carry
their members along.
-/

namespace SchemaCodec

inductive Descriptor
  | primitive (p : Primitive)
  | parameter (index : Nat)
  | sequence (container : Container) (element : Descriptor)
  | declared (id : RecordId) (args : List MessageType)
  | built (name short : String) (origin : Origin) (members : List (String × Descriptor))

@[induction_eliminator]
theorem Descriptor.induct {motive : Descriptor → Prop}
    (primitive : ∀ p, motive (.primitive p)) (parameter : ∀ i, motive (.parameter i))
    (sequence : ∀ container element, motive element → motive (.sequence container element))
    (declared : ∀ id args, motive (.declared id args))
    (built : ∀ name short origin members, (∀ p ∈ members, motive p.2) →
      motive (.built name short origin members))
    (d : Descriptor) : motive d :=
  Descriptor.rec (motive_1 := motive) (motive_2 := fun members => ∀ p ∈ members, motive p.2)
    (motive_3 := fun p => motive p.2)
    primitive parameter sequence declared built
    (List.forall_mem_nil _) (fun _ _ head tail => List.forall_mem_cons.mpr ⟨head, tail⟩)
    (fun _ _ h => h) d

def MessageType.describe : MessageType → Descriptor
  | primitive p => .primitive p
  | parameter i => .parameter i
  | sequence storage element => .sequence storage.container element.describe
  | record id args => .declared id args

namespace Descriptor

def name : Descriptor → String
  | primitive p => p.name
  | parameter i => TypeName.parameter i
  | sequence _ element => TypeName.array element.name
  | declared id args => (MessageType.record id args).name
  | built name _ _ _ => name

def shortName : Descriptor → String
  | primitive p => p.name
  | parameter i => TypeName.parameter i
  | sequence _ element => TypeName.array element.shortName
  | declared id _ => id.short
  | built _ short _ _ => short

def innermost : Descriptor → Descriptor
  | sequence _ element => element.innermost
  | d => d

def arrays (d : Descriptor) : Nat → Descriptor
  | 0 => d
  | depth + 1 => sequence .array (d.arrays depth)

def isRecord : Descriptor → Bool
  | declared _ _ => true
  | built _ _ _ _ => true
  | _ => false

def primitive? : Descriptor → Option Primitive
  | primitive p => some p
  | _ => none

variable (C : Catalog)

def members? : Descriptor → Option (List (String × Descriptor))
  | declared id args => some ((C.members id args).map fun (name, t) => (name, t.describe))
  | built _ _ _ members => some members
  | _ => none

def member? (d : Descriptor) (name : String) : Option Descriptor :=
  (d.members? C).bind (List.lookup name)

def constructible : Descriptor → Bool
  | declared id _ => (C.declaration id).constructible
  | _ => true

def origin : Descriptor → Origin
  | declared id _ => (C.declaration id).origin
  | built _ _ origin _ => origin
  | _ => .declared

theorem innermost_innermost (d : Descriptor) : d.innermost.innermost = d.innermost := by
  induction d with
  | sequence container element ih => exact ih
  | _ => rfl

theorem name_arrays (d : Descriptor) (levels : Nat) :
    (d.arrays levels).name = TypeName.arrays d.name levels := by
  induction levels with
  | zero => rfl
  | succ levels ih => exact congrArg TypeName.array ih

theorem innermost_arrays (d : Descriptor) (levels : Nat) :
    (d.arrays levels).innermost = d.innermost := by
  induction levels with
  | zero => rfl
  | succ levels ih => exact ih

end Descriptor

end SchemaCodec
