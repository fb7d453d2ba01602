import Mathlib.Data.Set.Defs
import SchemaCodec.Plan.Basic
import SchemaCodec.Program.Catalog
import SchemaCodec.Proofs.Lists
import SchemaCodec.Proofs.TypeName.Arrays
import SchemaCodec.Text.Utf8

/-! # Sets of types

The types of a set may be used together if their records can be told apart by name. The names of
sequences do not tell how they are stored, so types are compared up to the storage of sequences.
-/

namespace SchemaCodec

namespace MessageType

/-- The types are the same up to the storage of sequences, outside the arguments of records. -/
inductive Alike : MessageType → MessageType → Prop

  | primitive (p : Primitive) : Alike (.primitive p) (.primitive p)

  | parameter (index : Nat) : Alike (.parameter index) (.parameter index)

  | sequence {storage storage' : Storage} {element element' : MessageType} :
      Alike element element' → Alike (.sequence storage element) (.sequence storage' element')

  | record {id id' : RecordId} {args args' : List MessageType} :
      (record id args).name = (record id' args').name →
      Alike (.record id args) (.record id' args')

/-- No generic parameter is under the sequences of the type. -/
inductive Bound : MessageType → Prop

  | primitive (p : Primitive) : Bound (.primitive p)

  | sequence {storage : Storage} {element : MessageType} : Bound element →
      Bound (.sequence storage element)

  | record (id : RecordId) (args : List MessageType) : Bound (.record id args)

variable {t t' : MessageType}

theorem Alike.name_eq (h : Alike t t') : t.name = t'.name := by
  induction h with
  | primitive p => rfl
  | parameter i => rfl
  | sequence _ ih =>
    rw [name, name, ih]
  | record same => exact same

theorem alike_parameter {args args' : List MessageType} (h : List.Forall₂ Alike args args')
    (index other : Nat) :
    Alike (args[index]?.getD (.parameter other)) (args'[index]?.getD (.parameter other)) := by
  induction h generalizing index with
  | nil => exact .parameter other
  | cons head _ ih =>
    cases index with
    | zero => exact head
    | succ index => exact ih index

theorem alike_subst {args args' : List MessageType} (h : List.Forall₂ Alike args args')
    (t : MessageType) : Alike (t.subst args) (t.subst args') := by
  induction t with
  | primitive p => exact .primitive p
  | parameter i => exact alike_parameter h i i
  | sequence storage element ih => exact .sequence ih
  | record id ts ih =>
    refine .record (congrArg (recordName id.base) ?_)
    rw [substAll_eq_map, substAll_eq_map, names_eq_map, names_eq_map, List.map_map, List.map_map]
    exact List.map_congr_left fun t ht => (ih t ht).name_eq

end MessageType

namespace Catalog

open MessageType

variable (C : Catalog) (types : Set MessageType)

/-- The types of a set, and those that serialized values of them are made of. -/
inductive Occurs : MessageType → Prop

  | of_mem {t : MessageType} : t ∈ types → Occurs t

  | element {storage : Storage} {t : MessageType} : Occurs (.sequence storage t) → Occurs t

  | member {id : RecordId} {args : List MessageType} {name : String} {t : MessageType} :
      Occurs (.record id args) → (name, t) ∈ C.members id args → Occurs t

def parts : MessageType → List MessageType
  | .sequence _ element => [element]
  | .record id args => (C.members id args).map Prod.snd ++ args
  | _ => []

/-- The members of two records have the same names, in the same order, and alike types. -/
def SameMembers (members members' : List (String × MessageType)) : Prop :=
  List.Forall₂ (fun m m' => m.1 = m'.1 ∧ Alike m.2 m'.2) members members'

/-- The records of the set are declared by the program, under well-formed names of which each
stands for one list of members. -/
structure Consistent : Prop where
  wellFormed : ∀ id args, C.Occurs types (.record id args) →
    TypeName.WellFormed (record id args).name
  declared : ∀ id args, C.Occurs types (.record id args) →
    (C.declaration id).origin ≠ .synthesized
  unique : ∀ id args id' args', C.Occurs types (.record id args) →
    C.Occurs types (.record id' args') → (record id args).name = (record id' args').name →
    SameMembers (C.members id args) (C.members id' args')

/-- The instance belongs to the type. The fields that are never serialized may be anything. -/
inductive Belongs : Instance → MessageType → Prop

  | scalar (k : Scalar) (x : k.Carrier) : Belongs (.scalar k x) (.scalar k)

  | text (s : String) : Belongs (.text s) .string

  | decimal (bits : BitVec 128) : Belongs (.decimal bits) (.primitive .decimal)

  | placeholder (index : Nat) : Belongs .placeholder (.parameter index)

  | items {xs : List Instance} {storage : Storage} {t : MessageType} : (∀ x ∈ xs, Belongs x t) →
      Belongs (.items xs) (.sequence storage t)

  | record {xs : List Instance} {id : RecordId} {args : List MessageType} :
      xs.length = (C.declaration id).fields.length →
      (∀ p ∈ xs.zip (C.declaration id).fields, p.2.skipped = false →
        Belongs p.1 (p.2.type.subst args)) →
      Belongs (.record xs) (.record id args)

/-- The instance belongs to the type, and its counts are within the limits and can be written. The
fields that are never serialized may be anything. -/
inductive Admits (limits : Limits) : Instance → MessageType → Prop

  | scalar (k : Scalar) (x : k.Carrier) : Admits limits (.scalar k x) (.scalar k)

  | text {s : String} : (Utf8.encode s).length ≤ limits.maxText →
      (Utf8.encode s).length ≤ maxCount → Admits limits (.text s) .string

  | decimal (bits : BitVec 128) : Admits limits (.decimal bits) (.primitive .decimal)

  | placeholder (index : Nat) : Admits limits .placeholder (.parameter index)

  | items {xs : List Instance} {storage : Storage} {t : MessageType} :
      xs.length ≤ limits.maxSequence → xs.length ≤ maxCount → (∀ x ∈ xs, Admits limits x t) →
      Admits limits (.items xs) (.sequence storage t)

  | record {xs : List Instance} {id : RecordId} {args : List MessageType} :
      xs.length = (C.declaration id).fields.length →
      (∀ p ∈ xs.zip (C.declaration id).fields, p.2.skipped = false →
        Admits limits p.1 (p.2.type.subst args)) →
      Admits limits (.record xs) (.record id args)

mutual

/-- What is left of an instance of a type when it has been written and read: fields that are never
serialized have their initial values. -/
def restore : Instance → MessageType → Instance
  | .items xs, .sequence _ t => .items (restoreAll xs t)
  | .record xs, .record id args => .record (restoreFields xs (C.declaration id).fields args)
  | x, _ => x

def restoreAll : List Instance → MessageType → List Instance
  | [], _ => []
  | x :: xs, t => restore x t :: restoreAll xs t

def restoreFields : List Instance → List Field → List MessageType → List Instance
  | x :: xs, f :: fs, args =>
    (if f.skipped then f.initial (C.initials args) else restore x (f.type.subst args)) ::
      restoreFields xs fs args
  | _, _, _ => []

end

variable {C types} {t t' : MessageType}

theorem Admits.belongs {limits : Limits} {x : Instance} (h : C.Admits limits x t) :
    C.Belongs x t := by
  induction h with
  | scalar k x => exact .scalar k x
  | text => exact .text _
  | decimal bits => exact .decimal bits
  | placeholder index => exact .placeholder index
  | items _ _ _ ih => exact .items ih
  | record length _ ih => exact .record length ih

theorem SameMembers.names_eq {members members' : List (String × MessageType)}
    (h : SameMembers members members') : members.map Prod.fst = members'.map Prod.fst :=
  map_eq_map (h.imp fun _ _ same => same.1)

theorem Consistent.atomic (consistent : C.Consistent types) {id : RecordId}
    {args : List MessageType} (occurs : C.Occurs types (.record id args)) :
    TypeName.Atomic (record id args).name :=
  (consistent.wellFormed id args occurs).toAtomic

theorem Consistent.name_ne (consistent : C.Consistent types) {id : RecordId}
    {args : List MessageType} (occurs : C.Occurs types (.record id args)) (p : Primitive) :
    (record id args).name ≠ p.name :=
  (consistent.wellFormed id args occurs).ne_name p

/-- Types that occur together are alike if they have the same name, where the names of records are
well formed. -/
theorem alike_of_name (wellFormed : ∀ id args, C.Occurs types (.record id args) →
      TypeName.WellFormed (record id args).name)
    (bound : Bound t) (bound' : Bound t') (occurs : C.Occurs types t)
    (occurs' : C.Occurs types t') (same : t.name = t'.name) : Alike t t' := by
  have apart : ∀ {id args}, C.Occurs types (.record id args) → ∀ p : Primitive,
      (record id args).name ≠ p.name := fun occurs => (wellFormed _ _ occurs).ne_name
  induction bound generalizing t' with
  | primitive p =>
    cases bound' with
    | primitive q =>
      have spelled := TypeName.ofSpelling?_name p
      rw [show p.name = q.name from same, TypeName.ofSpelling?_name] at spelled
      obtain rfl := Option.some.inj spelled
      exact .primitive q
    | sequence => exact absurd same ((TypeName.atomic_name p).ne_array _)
    | record id args => exact absurd same.symm (apart occurs' p)
  | sequence _ ih =>
    cases bound' with
    | primitive q => exact absurd same.symm ((TypeName.atomic_name q).ne_array _)
    | sequence bound' =>
      exact .sequence (ih bound' occurs.element occurs'.element (TypeName.array_inj same))
    | record id args => exact absurd same.symm ((wellFormed id args occurs').toAtomic.ne_array _)
  | record id args =>
    cases bound' with
    | primitive q => exact absurd same (apart occurs q)
    | sequence => exact absurd same ((wellFormed id args occurs).toAtomic.ne_array _)
    | record id' args' => exact .record same

theorem Consistent.alike (consistent : C.Consistent types) (bound : Bound t) (bound' : Bound t')
    (occurs : C.Occurs types t) (occurs' : C.Occurs types t') (same : t.name = t'.name) :
    Alike t t' :=
  alike_of_name consistent.wellFormed bound bound' occurs occurs' same

/-! ## Records of one declaration -/

theorem sameMembers_of_alike {args args' : List MessageType}
    (h : List.Forall₂ Alike args args') (id : RecordId) :
    SameMembers (C.members id args) (C.members id args') := by
  refine List.forall₂_map_left_iff.mpr (List.forall₂_map_right_iff.mpr ?_)
  refine List.forall₂_same.mpr fun f _ => ⟨rfl, alike_subst h f.type⟩

/-- It is enough that every name stands for one declaration, at arguments that are alike. -/
theorem consistent_of_declarations
    (wellFormed : ∀ id args, C.Occurs types (.record id args) →
      TypeName.WellFormed (record id args).name)
    (declared : ∀ id args, C.Occurs types (.record id args) →
      (C.declaration id).origin ≠ .synthesized)
    (one : ∀ id args id' args', C.Occurs types (.record id args) →
      C.Occurs types (.record id' args') → (record id args).name = (record id' args').name →
      id = id' ∧ List.Forall₂ Alike args args') : C.Consistent types := by
  refine ⟨wellFormed, declared, ?_⟩
  intro id args id' args' occurs occurs' same
  obtain ⟨rfl, alike⟩ := one id args id' args' occurs occurs' same
  exact sameMembers_of_alike alike id

end Catalog

end SchemaCodec
