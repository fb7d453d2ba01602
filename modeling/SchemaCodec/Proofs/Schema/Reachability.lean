import Mathlib.Data.List.Forall2
import Mathlib.Logic.Relation
import SchemaCodec.Proofs.Lists
import SchemaCodec.Proofs.Program.Depiction
import SchemaCodec.Proofs.Schema.Extraction

/-! # Type graphs

What a type leads to through the elements of sequences and the members of records, and which records
embed which. Records are told apart by name, so a name should stand for one definition.
-/

namespace SchemaCodec

open Relation

namespace Descriptor

/-- The types that a root leads to. -/
inductive Reaches (C : Catalog) (root : Descriptor) : Descriptor → Prop

  | root : Reaches C root root

  | element {container : Container} {d : Descriptor} :
      Reaches C root (.sequence container d) → Reaches C root d

  | member {r : Descriptor} {m : String × Descriptor} :
      Reaches C root r → m ∈ r.members C → Reaches C root m.2

/-- The types are the same up to the containers of sequences, where records are known by name. -/
inductive Alike : Descriptor → Descriptor → Prop

  | primitive (p : Primitive) : Alike (.primitive p) (.primitive p)

  | parameter (index : Nat) : Alike (.parameter index) (.parameter index)

  | sequence {container container' : Container} {d d' : Descriptor} :
      Alike d d' → Alike (.sequence container d) (.sequence container' d')

  | record {r r' : Descriptor} :
      r.isRecord = true → r'.isRecord = true → r.name = r'.name → Alike r r'

/-- The records have the same members, and both can be built from nothing or neither can. -/
structure SameDefinition (C : Catalog) (r r' : Descriptor) : Prop where
  constructible : r.constructible C = r'.constructible C
  members : List.Forall₂ (fun m m' => m.1 = m'.1 ∧ Alike m.2 m'.2) (r.members C) (r'.members C)

/-- Every name of a record that the root leads to stands for one definition. -/
def Unambiguous (C : Catalog) (root : Descriptor) : Prop :=
  ∀ r r', Reaches C root r → Reaches C root r' → r.isRecord = true → r'.isRecord = true →
    r.name = r'.name → SameDefinition C r r'

/-- The records have the same members, in whatever order, and both can be built from nothing or
neither can. -/
structure SameRecord (C : Catalog) (r r' : Descriptor) : Prop where
  constructible : r.constructible C = r'.constructible C
  names : ((r.members C).map Prod.fst).Perm ((r'.members C).map Prod.fst)
  member : ∀ m ∈ r.members C, ∃ m' ∈ r'.members C, m.1 = m'.1 ∧ Alike m.2 m'.2

/-- Every name of a record that the root leads to stands for one definition, whose members may come
in more than one order. -/
def Definite (C : Catalog) (root : Descriptor) : Prop :=
  ∀ r r', Reaches C root r → Reaches C root r' → r.isRecord = true → r'.isRecord = true →
    r.name = r'.name → SameRecord C r r'

/-- A record that the root leads to has a member with a record under its sequences. -/
def Embeds (C : Catalog) (root : Descriptor) (name other : String) : Prop :=
  ∃ r, Reaches C root r ∧ r.name = name ∧ ∃ m ∈ r.members C,
    m.2.innermost.isRecord = true ∧ m.2.innermost.name = other

variable {C : Catalog} {root d d' r r' : Descriptor} {m : String × Descriptor}

theorem Reaches.trans (h : Reaches C root d) (h' : Reaches C d d') : Reaches C root d' := by
  induction h' with
  | root => exact h
  | element _ ih => exact ih.element
  | member _ mem ih => exact ih.member mem

theorem reaches_innermost (C : Catalog) (d : Descriptor) : Reaches C d d.innermost := by
  induction d with
  | sequence container element ih => exact (Reaches.element .root).trans ih
  | _ => exact .root

theorem isRecord_of_mem_members (mem : m ∈ r.members C) : r.isRecord = true := by
  cases r with
  | declared => rfl
  | built => rfl
  | _ => cases mem

theorem innermost_of_isRecord (isRecord : r.isRecord = true) : r.innermost = r := by
  cases r with
  | sequence => cases isRecord
  | _ => rfl

theorem Reaches.innermost (h : Reaches C root d) : Reaches C root d.innermost :=
  h.trans (reaches_innermost C d)

theorem Alike.innermost (h : Alike d d') : Alike d.innermost d'.innermost := by
  induction h with
  | primitive p => exact .primitive p
  | parameter i => exact .parameter i
  | sequence _ ih => exact ih
  | record isRecord isRecord' same =>
    rw [innermost_of_isRecord isRecord, innermost_of_isRecord isRecord']
    exact .record isRecord isRecord' same

theorem Alike.name_eq (h : Alike d d') : d.name = d'.name := by
  induction h with
  | primitive p => rfl
  | parameter i => rfl
  | sequence _ ih => exact congrArg TypeName.array ih
  | record _ _ same => exact same

theorem Alike.isRecord (h : Alike d d') (isRecord : d.isRecord = true) : d'.isRecord = true := by
  cases h with
  | record _ isRecord' _ => exact isRecord'
  | _ => cases isRecord

theorem SameDefinition.names_eq (h : SameDefinition C r r') :
    (r.members C).map Prod.fst = (r'.members C).map Prod.fst :=
  map_eq_map (h.members.imp fun _ _ same => same.1)

theorem SameDefinition.exists_member (h : SameDefinition C r r') (mem : m ∈ r.members C) :
    ∃ m' ∈ r'.members C, m.1 = m'.1 ∧ Alike m.2 m'.2 :=
  partner_right h.members mem

theorem Alike.refl (d : Descriptor) : Alike d d := by
  induction d with
  | primitive p => exact .primitive p
  | parameter i => exact .parameter i
  | sequence _ _ ih => exact .sequence ih
  | declared => exact .record rfl rfl rfl
  | built => exact .record rfl rfl rfl

theorem Alike.symm (h : Alike d d') : Alike d' d := by
  induction h with
  | primitive p => exact .primitive p
  | parameter i => exact .parameter i
  | sequence _ ih => exact .sequence ih
  | record isRecord isRecord' same => exact .record isRecord' isRecord same.symm

theorem SameDefinition.sameRecord (h : SameDefinition C r r') : SameRecord C r r' :=
  ⟨h.constructible, .of_eq h.names_eq, fun _ mem => h.exists_member mem⟩

theorem Unambiguous.definite (h : Unambiguous C root) : Definite C root :=
  fun r r' reached reached' isRecord isRecord' same =>
    (h r r' reached reached' isRecord isRecord' same).sameRecord

theorem unambiguous_of_unique (h : ∀ r r', Reaches C root r → Reaches C root r' →
    r.isRecord = true → r'.isRecord = true → r.name = r'.name → r = r') : Unambiguous C root := by
  intro r r' reached reached' isRecord isRecord' same
  obtain rfl := h r r' reached reached' isRecord isRecord' same
  exact ⟨rfl, List.forall₂_same.mpr fun m _ => ⟨rfl, .refl m.2⟩⟩

section Known

variable (known : List MessageType) {t : MessageType} (start : t ∈ known)
  (closed : ∀ s ∈ known, ∀ part ∈ C.parts s, part ∈ known)

include start closed

theorem Reaches.exists_describe (h : Reaches C t.describe d) : ∃ s ∈ known, d = s.describe := by
  induction h with
  | root => exact ⟨t, start, rfl⟩
  | element _ ih =>
    obtain ⟨s, mem, same⟩ := ih
    cases s with
    | sequence storage element =>
      cases same
      exact ⟨element, closed _ mem _ List.mem_cons_self, rfl⟩
    | _ => cases same
  | member _ mem ih =>
    obtain ⟨s, listed, rfl⟩ := ih
    cases s with
    | record id args =>
      obtain ⟨m, declared, rfl⟩ := List.mem_map.mp mem
      have part : m.2 ∈ (C.members id args).map Prod.snd := List.mem_map_of_mem declared
      exact ⟨m.2, closed _ listed _ (List.mem_append_left _ part), rfl⟩
    | _ => cases mem

theorem unambiguous_of_known (unique : ∀ s ∈ known, ∀ s' ∈ known, s.describe.isRecord = true →
    s.name = s'.name → s = s') : Unambiguous C t.describe := by
  refine unambiguous_of_unique fun r r' reached reached' isRecord _ same => ?_
  obtain ⟨s, mem, rfl⟩ := reached.exists_describe known start closed
  obtain ⟨s', mem', rfl⟩ := reached'.exists_describe known start closed
  rw [Catalog.name_describe, Catalog.name_describe] at same
  rw [unique s mem s' mem' isRecord same]

end Known

theorem Reaches.embeds (h : Reaches C root d) (isRecord : d.innermost.isRecord = true) :
    root.innermost.isRecord = true ∧
      ReflTransGen (Embeds C root) root.innermost.name d.innermost.name := by
  induction h with
  | root => exact ⟨isRecord, .refl⟩
  | element _ ih => exact ih isRecord
  | @member r m reached mem ih =>
    have isRecord' := isRecord_of_mem_members mem
    rw [innermost_of_isRecord isRecord'] at ih
    obtain ⟨start, path⟩ := ih isRecord'
    exact ⟨start, path.tail ⟨r, reached, rfl, m, mem, isRecord, rfl⟩⟩

theorem embeds_iff (definite : Definite C root) (reached : Reaches C root r)
    (isRecord : r.isRecord = true) {other : String} :
    Embeds C root r.name other ↔ ∃ m ∈ r.members C,
      m.2.innermost.isRecord = true ∧ m.2.innermost.name = other := by
  constructor
  · rintro ⟨r', reached', same, m', mem', isRecord', rfl⟩
    have definition := definite r' r reached' reached (isRecord_of_mem_members mem') isRecord same
    obtain ⟨m, mem, -, alike⟩ := definition.member m' mem'
    exact ⟨m, mem, alike.innermost.isRecord isRecord', alike.innermost.name_eq.symm⟩
  · rintro ⟨m, mem, isRecord', rfl⟩
    exact ⟨r, reached, rfl, m, mem, isRecord', rfl⟩

theorem embeds_iff_needs (definite : Definite C root) (reached : Reaches C root r)
    (isRecord : r.isRecord = true) {other : String} :
    Embeds C root r.name other ↔ other ∈ Extraction.needs C r := by
  rw [embeds_iff definite reached isRecord, Extraction.needs, List.mem_filterMap]
  simp only [Option.ite_none_right_eq_some, Option.some.injEq]
  rfl

end Descriptor

open Descriptor

namespace Discovery

variable {C : Catalog} {root d d' : Descriptor} {found : List Descriptor}

theorem Covered.exists_found (h : Covered found d) (isRecord : d.isRecord = true) :
    ∃ r ∈ found, r.name = d.name := by
  have inner := innermost_of_isRecord isRecord
  rcases h with ⟨p, -, leaf⟩ | ⟨-, known⟩
  · rw [← inner, leaf] at isRecord
    cases isRecord
  · rwa [inner] at known

theorem Covered.alike (h : Covered found d) (alike : Alike d d') : Covered found d' := by
  induction alike with
  | primitive p => exact h
  | parameter i => exact h
  | sequence _ ih => exact ih h
  | record isRecord isRecord' same =>
    have known := h.exists_found isRecord
    rw [same, ← innermost_of_isRecord isRecord'] at known
    exact .inr ⟨(innermost_of_isRecord isRecord').symm ▸ isRecord', known⟩

theorem covered_of_reaches (definite : Definite C root) (start : Covered found root)
    (closed : ∀ r ∈ found, r.isRecord = true ∧ Reaches C root r ∧ Closed C found r)
    (h : Reaches C root d) : Covered found d := by
  induction h with
  | root => exact start
  | element _ ih => exact ih
  | @member r m reached mem ih =>
    have isRecord := isRecord_of_mem_members mem
    obtain ⟨r', hr', same⟩ := ih.exists_found isRecord
    obtain ⟨isRecord', reached', closed'⟩ := closed r' hr'
    have definition := definite r r' reached reached' isRecord isRecord' same.symm
    obtain ⟨m', mem', -, alike⟩ := definition.member m mem
    exact (closed'.covered m' mem').alike alike.symm

theorem hereditary_reaches (C : Catalog) (root : Descriptor) :
    Hereditary C (Reaches C root) where
  innermost := fun _ reached => reached.innermost
  member := fun _ reached _ mem => reached.member mem

/-- Discovery finds records that the root leads to, and it covers everything else. -/
theorem reached_of_definite (definite : Definite C root) (h : records C root = .ok found) :
    (∀ r ∈ found, r.isRecord = true ∧ Reaches C root r ∧ Closed C found r) ∧
      ∀ d, Reaches C root d → Covered found d := by
  obtain ⟨closed, start⟩ := closed_records (hereditary_reaches C root) .root h
  exact ⟨closed, fun d reached => covered_of_reaches definite start closed reached⟩

theorem reached_records (unambiguous : Unambiguous C root) (h : records C root = .ok found) :
    (∀ r ∈ found, r.isRecord = true ∧ Reaches C root r ∧ Closed C found r) ∧
      ∀ d, Reaches C root d → Covered found d :=
  reached_of_definite unambiguous.definite h

end Discovery

theorem Extraction.isSome_root? {C : Catalog} {d : Descriptor} {ext : Extraction}
    (extracted : ofDescriptor C d = .ok ext) (isRecord : d.isRecord = true) :
    ext.schema.root?.isSome := by
  obtain ⟨found, named, -⟩ := ofDescriptor_eq_ok extracted
  obtain ⟨-, covered⟩ := Discovery.closed_records (Discovery.hereditary_true C) trivial found
  have inner := Descriptor.innermost_of_isRecord isRecord
  rcases covered with ⟨p, -, leaf⟩ | ⟨-, r, mem, same⟩
  · rw [inner] at leaf
    rw [leaf] at isRecord
    cases isRecord
  · have listed : (entry C r).node ∈ ext.schema.types := (mem_types extracted).mpr ⟨r, mem, rfl⟩
    have own : (entry C r).node.typeName = ext.schema.typeName := by
      rw [named, ← inner]
      exact same
    exact List.find?_isSome.mpr ⟨_, listed, decide_eq_true own⟩

end SchemaCodec
