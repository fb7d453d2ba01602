import SchemaCodec.Proofs.Program.Naming
import SchemaCodec.Proofs.Program.Typing
import SchemaCodec.Proofs.TypeName.Canonical

/-! # Types that are known by their names

Types whose names can be taken apart: the names of records are well formed and tell the records
apart, and those of their arguments are not divided by commas. Such a name tells the record and its
arguments.
-/

namespace SchemaCodec.Catalog

open SchemaCodec.TypeName MessageType

variable (C : Catalog) (types : Set MessageType)

/-- The types of a set, those that serialized values of them are made of, and the arguments in the
names of all of these. -/
inductive Involves : MessageType → Prop

  | of_mem {t : MessageType} : t ∈ types → Involves t

  | element {storage : Storage} {t : MessageType} : Involves (.sequence storage t) → Involves t

  | member {id : RecordId} {args : List MessageType} {name : String} {t : MessageType} :
      Involves (.record id args) → (name, t) ∈ C.members id args → Involves t

  | argument {id : RecordId} {args : List MessageType} {t : MessageType} :
      Involves (.record id args) → t ∈ args → Involves t

def involved : Set MessageType := {t | C.Involves types t}

/-- The records of the set are declared by the program, under well-formed names that have no
parameters in them and of which each stands for one record. No comma stands outside the brackets of
an argument. -/
structure Legible : Prop where
  wellFormed : ∀ id args, C.Involves types (.record id args) → WellFormed (record id args).name
  undivided : ∀ id args t, C.Involves types (.record id args) → t ∈ args → Undivided t.name
  unmarked : ∀ t, C.Involves types t → '$' ∉ t.name.toList
  declared : ∀ id args, C.Involves types (.record id args) →
    (C.declaration id).origin ≠ .synthesized
  one : ∀ id args id' args', C.Involves types (.record id args) →
    C.Involves types (.record id' args') → (record id args).name = (record id' args').name →
    id' = id

variable {C types} {t t' : MessageType} {id id' : RecordId} {args args' : List MessageType}

theorem occurs_involved : C.Occurs (C.involved types) t ↔ C.Involves types t := by
  constructor
  · intro h
    induction h with
    | of_mem mem => exact mem
    | element _ ih => exact ih.element
    | member _ mem ih => exact ih.member mem
  · exact .of_mem

theorem Involves.innermost (h : C.Involves types t) : C.Involves types t.innermost := by
  induction t with
  | sequence storage element ih => exact ih h.element
  | _ => exact h

theorem Involves.mem_of_parts {known : List MessageType} (start : ∀ t ∈ types, t ∈ known)
    (closed : ∀ s ∈ known, ∀ t ∈ C.parts s, t ∈ known) (h : C.Involves types t) : t ∈ known := by
  induction h with
  | of_mem mem => exact start _ mem
  | element _ ih => exact closed _ ih _ List.mem_cons_self
  | member _ mem ih =>
    exact closed _ ih _ (List.mem_append_left _ (List.mem_map_of_mem (f := Prod.snd) mem))
  | argument _ mem ih => exact closed _ ih _ (List.mem_append_right _ mem)

namespace Legible

theorem bound (legible : C.Legible types) (involves : C.Involves types t) : Bound t := by
  induction t with
  | primitive p => exact .primitive p
  | parameter i =>
    refine absurd ?_ (legible.unmarked _ involves)
    rw [name, toList_parameter]
    exact List.mem_cons_self
  | sequence storage element ih => exact .sequence (ih involves.element)
  | record id args => exact .record id args

theorem atomic (legible : C.Legible types) (involves : C.Involves types t) :
    Atomic t.innermost.name := by
  induction t with
  | primitive p => exact atomic_name p
  | parameter i => exact atomic_parameter i
  | sequence storage element ih => exact ih involves.element
  | record id args => exact (legible.wellFormed id args involves).toAtomic

theorem splitArrays (legible : C.Legible types) (involves : C.Involves types t) :
    TypeName.splitArrays t.name = (t.innermost.name, t.levels) := by
  rw [name_eq_arrays]
  exact splitArrays_arrays (legible.atomic involves) t.levels

theorem piece (legible : C.Legible types) (involves : C.Involves types (.record id args))
    (mem : t ∈ args) : Piece t.name := by
  have undivided := legible.undivided id args t involves mem
  rw [name_eq_arrays] at undivided ⊢
  exact (legible.atomic (involves.argument mem)).piece undivided

theorem pieces (legible : C.Legible types) (involves : C.Involves types (.record id args)) :
    ∀ name ∈ args.map MessageType.name, Piece name := by
  intro name mem
  obtain ⟨t, ht, rfl⟩ := List.mem_map.mp mem
  exact legible.piece involves ht

theorem names_eq (legible : C.Legible types) (involves : C.Involves types (.record id args))
    (involves' : C.Involves types (.record id args'))
    (same : (record id args).name = (record id args').name) : args.map name = args'.map name := by
  have longer : ∀ a as, id.base ≠ generic id.base (a :: as) := by
    intro a as same
    have chars := congrArg (fun s => s.toList.length) same
    simp only [toList_generic, List.length_append, List.length_cons] at chars
    omega
  have pieces := legible.pieces involves
  have pieces' := legible.pieces involves'
  rw [name_record, name_record] at same
  cases args with
  | nil =>
    cases args' with
    | nil => rfl
    | cons b bs => exact absurd same (longer _ _)
  | cons a as =>
    cases args' with
    | nil => exact absurd same.symm (longer _ _)
    | cons b bs => exact generic_inj (by simp) (by simp) pieces pieces' same

theorem alike (legible : C.Legible types) (involves : C.Involves types t)
    (involves' : C.Involves types t') (same : t.name = t'.name) : Alike t t' :=
  alike_of_name (fun id args occurs => legible.wellFormed id args (occurs_involved.mp occurs))
    (legible.bound involves) (legible.bound involves') (occurs_involved.mpr involves)
    (occurs_involved.mpr involves') same

/-- Records of one name are one record, and their members are alike. -/
theorem members_alike (legible : C.Legible types) (involves : C.Involves types (.record id args))
    (involves' : C.Involves types (.record id' args'))
    (same : (record id args).name = (record id' args').name) :
    SameMembers (C.members id args) (C.members id' args') := by
  obtain rfl := legible.one id args id' args' involves involves' same
  refine sameMembers_of_alike ?_ _
  exact (forall₂_of_map_eq (legible.names_eq involves involves' same)).imp
    fun _ _ ⟨same, ha, ha'⟩ => legible.alike (involves.argument ha) (involves'.argument ha') same

theorem consistent (legible : C.Legible types) : C.Consistent (C.involved types) where
  wellFormed := fun id args occurs => legible.wellFormed id args (occurs_involved.mp occurs)
  declared := fun id args occurs => legible.declared id args (occurs_involved.mp occurs)
  unique := fun _ _ _ _ occurs occurs' =>
    legible.members_alike (occurs_involved.mp occurs) (occurs_involved.mp occurs')

end Legible

end SchemaCodec.Catalog
