import SchemaCodec.Proofs.Program.Depiction
import SchemaCodec.Proofs.Schema.Extraction

/-! # Nodes of records

The nodes of an extracted schema list the members of records under the names of their types, from
whatever descriptions of the records they were extracted.
-/

namespace SchemaCodec

open Discovery

namespace Catalog

open MessageType

/-- The children of the node are the members of the record, under the names of their types. -/
structure Lists (C : Catalog) (types : Set MessageType) (id : RecordId) (args : List MessageType)
    (node : Node) : Prop where
  occurs : C.Occurs types (.record id args)
  named : node.typeName = (record id args).name
  unique : ((C.members id args).map Prod.fst).Nodup
  bound : ∀ m ∈ C.members id args, Bound m.2
  child : ∀ m ∈ C.members id args, .member m.1 m.2.name ∈ node.children
  only : ∀ c ∈ node.children, ∃ m ∈ C.members id args, c = .member m.1 m.2.name

variable {K C : Catalog} {types : Set MessageType} {d r : Descriptor} {t : MessageType}
  {id : RecordId} {args : List MessageType} {found : List Descriptor} {ext : Extraction}

theorem hereditary_depicts (consistent : C.Consistent types) :
    Hereditary K fun d => ∃ t, C.Occurs types t ∧ Depicts K C types d t where
  innermost := by
    rintro d ⟨t, occurs, depicts⟩
    obtain ⟨t', depicts', occurs'⟩ := depicts.innermost occurs
    exact ⟨t', occurs', depicts'⟩
  member := by
    rintro d ⟨t, occurs, depicts⟩ m mem
    by_cases isRecord : d.isRecord = true
    · obtain ⟨id, args, rfl⟩ := depicts.exists_record isRecord
      obtain ⟨members, known, -, only⟩ := depicts.members consistent occurs
      rw [Descriptor.members, known] at mem
      obtain ⟨t', member, depicts'⟩ := only m mem
      exact ⟨t', occurs.member member, depicts'⟩
    · cases depicts with
      | primitive => cases mem
      | parameter => cases mem
      | sequence => cases mem
      | declared => exact absurd rfl isRecord
      | built => exact absurd rfl isRecord

theorem bound_of_covered (depicts : Depicts K C types d t) (h : Covered found d) : Bound t := by
  induction depicts with
  | primitive p => exact .primitive p
  | parameter i =>
    rcases h with ⟨p, -, no⟩ | ⟨no, -⟩
    · cases no
    · cases no
  | sequence _ ih => exact .sequence (ih h)
  | declared => exact .record _ _
  | built => exact .record _ _

theorem Depicts.nodup (consistent : C.Consistent types) (occurs : C.Occurs types (.record id args))
    (depicts : Depicts K C types r (.record id args)) (h : ((r.members K).map Prod.fst).Nodup) :
    ((C.members id args).map Prod.fst).Nodup := by
  cases depicts with
  | declared same_catalog listed same =>
    subst same_catalog
    have members := consistent.unique _ _ _ _ listed occurs same
    rw [← members.names_eq]
    rw [Descriptor.members, Descriptor.members?, Option.getD_some, List.map_map] at h
    exact h
  | built _ unique _ _ _ => exact unique

theorem lists_entry (consistent : C.Consistent types) (occurs : C.Occurs types (.record id args))
    (depicts : Depicts K C types r (.record id args)) (closed : Closed K found r) :
    C.Lists types id args (Extraction.entry K r).node := by
  obtain ⟨members, known, every, only⟩ := depicts.members consistent occurs
  have members_eq : r.members K = members := by rw [Descriptor.members, known]; rfl
  obtain ⟨unique, covered⟩ := closed
  rw [members_eq] at unique covered
  have names := depicts.nodup consistent occurs (members_eq ▸ unique)
  refine ⟨occurs, depicts.name_eq, names, ?_, ?_, ?_⟩
  · intro m mem
    obtain ⟨p, hp, -, depicts'⟩ := every m mem
    exact bound_of_covered depicts' (covered p hp)
  · intro m mem
    obtain ⟨p, hp, same, depicts'⟩ := every m mem
    rw [← same, ← depicts'.name_eq]
    exact Extraction.exists_child (members_eq ▸ unique) (members_eq ▸ hp)
  · intro c hc
    obtain ⟨p, hp, rfl⟩ := Extraction.mem_children hc
    obtain ⟨t, mem, depicts'⟩ := only p (members_eq ▸ hp)
    exact ⟨(p.1, t), mem, by rw [depicts'.name_eq]⟩

/-- The records that are met in extracting a description of a type of the set are closed
descriptions of such types, and they cover the type. -/
theorem closed_of_extracted (consistent : C.Consistent types) (occurs : C.Occurs types t)
    (depicts : Depicts K C types d t) (h : Extraction.ofDescriptor K d = .ok ext) :
    (∀ r ∈ ext.records, (∃ id args, C.Occurs types (.record id args) ∧
      Depicts K C types r (.record id args)) ∧ Closed K ext.records r) ∧
      Covered ext.records d := by
  obtain ⟨closed, covered⟩ := closed_records (hereditary_depicts consistent) ⟨t, occurs, depicts⟩
    (Extraction.ofDescriptor_eq_ok h).1
  refine ⟨fun r mem => ?_, covered⟩
  obtain ⟨isRecord, ⟨t', occurs', depicts'⟩, hr⟩ := closed r mem
  obtain ⟨id, args, rfl⟩ := depicts'.exists_record isRecord
  exact ⟨⟨id, args, occurs', depicts'⟩, hr⟩

theorem lists_extracted (consistent : C.Consistent types) (occurs : C.Occurs types t)
    (depicts : Depicts K C types d t) (h : Extraction.ofDescriptor K d = .ok ext) :
    ∀ node ∈ ext.schema.types, ∃ id args, C.Lists types id args node := by
  obtain ⟨closed, -⟩ := closed_of_extracted consistent occurs depicts h
  intro node mem
  obtain ⟨r, hr, rfl⟩ := (Extraction.mem_types h).mp mem
  obtain ⟨⟨id, args, occurs', depicts'⟩, hclosed⟩ := closed r hr
  exact ⟨id, args, lists_entry consistent occurs' depicts' hclosed⟩

end Catalog

end SchemaCodec
