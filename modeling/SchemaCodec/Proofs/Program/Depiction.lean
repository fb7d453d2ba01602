import SchemaCodec.Descriptor
import SchemaCodec.Proofs.Program.Typing

/-! # Descriptions of types

What is known about a type by its name is a description of the type or of one that is alike: a
record may be known as the program declares it, or as it was made from a schema or from a generic
definition, and a sequence as an array or as a list.
-/

namespace SchemaCodec

namespace Catalog

open MessageType

/-- The description, in the catalogue `K` of an engine, is one of the type. Records that the program
declares are described if the engine has the program's own catalogue. -/
inductive Depicts (K C : Catalog) (types : Set MessageType) : Descriptor → MessageType → Prop

  | primitive (p : Primitive) : Depicts K C types (.primitive p) (.primitive p)

  | parameter (index : Nat) : Depicts K C types (.parameter index) (.parameter index)

  | sequence {container : Container} {storage : Storage} {d : Descriptor} {t : MessageType} :
      Depicts K C types d t → Depicts K C types (.sequence container d) (.sequence storage t)

  | declared {id id' : RecordId} {args args' : List MessageType} : K = C →
      C.Occurs types (.record id args) → (record id args).name = (record id' args').name →
      Depicts K C types (.declared id args) (.record id' args')

  | built {name short : String} {origin : Origin} {members : List (String × Descriptor)}
      {id : RecordId} {args : List MessageType} : name = (record id args).name →
      ((C.members id args).map Prod.fst).Nodup →
      (∀ m ∈ C.members id args, ∃ p ∈ members, p.1 = m.1) →
      (∀ p ∈ members, ∃ t, (p.1, t) ∈ C.members id args) →
      (∀ p ∈ members, ∀ t, (p.1, t) ∈ C.members id args → Depicts K C types p.2 t) →
      Depicts K C types (.built name short origin members) (.record id args)

variable {K C : Catalog} {types : Set MessageType} {d : Descriptor} {t t' : MessageType}
  {id : RecordId} {args : List MessageType}

theorem name_describe (t : MessageType) : t.describe.name = t.name := by
  induction t with
  | sequence storage element ih => exact congrArg TypeName.array ih
  | _ => rfl

theorem Depicts.name_eq (h : Depicts K C types d t) : d.name = t.name := by
  induction h with
  | primitive p => rfl
  | parameter i => rfl
  | sequence _ ih => exact congrArg TypeName.array ih
  | declared _ _ same => exact same
  | built same _ _ _ _ _ => exact same

theorem depicts_describe (occurs : C.Occurs types t) : Depicts C C types t.describe t := by
  induction t with
  | primitive p => exact .primitive p
  | parameter i => exact .parameter i
  | sequence storage element ih => exact .sequence (ih occurs.element)
  | record id args => exact .declared rfl occurs rfl

theorem Depicts.of_alike (consistent : C.Consistent types) (h : Depicts K C types d t)
    (alike : Alike t t') (occurs : C.Occurs types t) (occurs' : C.Occurs types t') :
    Depicts K C types d t' := by
  induction h generalizing t' with
  | primitive p =>
    cases alike with
    | primitive => exact .primitive p
  | parameter i =>
    cases alike with
    | parameter => exact .parameter i
  | sequence _ ih =>
    cases alike with
    | sequence alike => exact .sequence (ih alike occurs.element occurs'.element)
  | declared known listed same =>
    cases alike with
    | record same' => exact .declared known listed (same.trans same')
  | built named unique every only _ ih =>
    cases alike with
    | record same =>
      have members := consistent.unique _ _ _ _ occurs occurs' same
      refine .built (named.trans same) (members.names_eq ▸ unique) ?_ ?_ ?_
      · intro m' mem'
        obtain ⟨m, mem, name_eq, -⟩ := partner_left members mem'
        obtain ⟨p, hp, named⟩ := every m mem
        exact ⟨p, hp, named.trans name_eq⟩
      · intro p hp
        obtain ⟨t, mem⟩ := only p hp
        obtain ⟨m', mem', name_eq, -⟩ := partner_right members mem
        exact ⟨m'.2, by rw [show p.1 = m'.1 from name_eq]; exact mem'⟩
      · intro p hp u' mem'
        obtain ⟨⟨name, u⟩, mem, rfl, alike⟩ := partner_left members mem'
        exact ih p hp u mem alike (occurs.member mem) (occurs'.member mem')

theorem Depicts.members (consistent : C.Consistent types)
    (h : Depicts K C types d (.record id args)) (occurs : C.Occurs types (.record id args)) :
    ∃ members, d.members? K = some members ∧
      (∀ m ∈ C.members id args, ∃ p ∈ members, p.1 = m.1 ∧ Depicts K C types p.2 m.2) ∧
      ∀ p ∈ members, ∃ t, (p.1, t) ∈ C.members id args ∧ Depicts K C types p.2 t := by
  cases h with
  | declared known listed same =>
    subst known
    have members := consistent.unique _ _ _ _ listed occurs same
    refine ⟨_, rfl, ?_, ?_⟩
    · intro m mem
      obtain ⟨⟨name, t⟩, mem', rfl, alike⟩ := partner_left members mem
      exact ⟨_, List.mem_map.mpr ⟨_, mem', rfl⟩, rfl,
        (depicts_describe (listed.member mem')).of_alike consistent alike (listed.member mem')
          (occurs.member mem)⟩
    · intro p hp
      obtain ⟨⟨name, t⟩, mem', rfl⟩ := List.mem_map.mp hp
      obtain ⟨⟨name', t'⟩, mem, same, alike⟩ := partner_right members mem'
      obtain rfl : name = name' := same
      exact ⟨t', mem, (depicts_describe (listed.member mem')).of_alike consistent alike
        (listed.member mem') (occurs.member mem)⟩
  | built named unique every only inner =>
    refine ⟨_, rfl, ?_, ?_⟩
    · intro m mem
      obtain ⟨p, hp, same⟩ := every m mem
      exact ⟨p, hp, same, inner p hp m.2 (by rw [same]; exact mem)⟩
    · intro p hp
      obtain ⟨t, mem⟩ := only p hp
      exact ⟨t, mem, inner p hp t mem⟩

theorem Depicts.exists_record (h : Depicts K C types d t) (isRecord : d.isRecord = true) :
    ∃ id args, t = .record id args := by
  cases h with
  | declared => exact ⟨_, _, rfl⟩
  | built => exact ⟨_, _, rfl⟩
  | _ => cases isRecord

theorem Depicts.innermost (h : Depicts K C types d t) (occurs : C.Occurs types t) :
    ∃ t', Depicts K C types d.innermost t' ∧ C.Occurs types t' := by
  induction h with
  | primitive p => exact ⟨_, .primitive p, occurs⟩
  | parameter i => exact ⟨_, .parameter i, occurs⟩
  | sequence _ ih => exact ih occurs.element
  | declared known listed same => exact ⟨_, .declared known listed same, occurs⟩
  | built named unique every only inner => exact ⟨_, .built named unique every only inner, occurs⟩

end Catalog

end SchemaCodec
