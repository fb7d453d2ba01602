import SchemaCodec.Proofs.Schema.Arrangement
import SchemaCodec.Proofs.Schema.Rejection

/-! # The order of declaration

The members of records may be declared in another order, in some records or in all of them. What is
reached, what is obstructed and what embeds what stays the same, so extraction accepts the type in
both orders or in neither; and the nodes, whose children are in the order of their names, are the
same.
-/

namespace SchemaCodec

open Relation

namespace Descriptor

/-- The types are the same, where records are known by name. The containers of sequences matter, since
arrays of scalars are coded in one piece. -/
inductive Twin : Descriptor → Descriptor → Prop

  | primitive (p : Primitive) : Twin (.primitive p) (.primitive p)

  | parameter (index : Nat) : Twin (.parameter index) (.parameter index)

  | sequence {container : Container} {d d' : Descriptor} :
      Twin d d' → Twin (.sequence container d) (.sequence container d')

  | record {r r' : Descriptor} :
      r.isRecord = true → r'.isRecord = true → r.name = r'.name → Twin r r'

/-- The records, each in its program, have the same members, maybe in another order, and both can be
built from nothing or neither can. -/
structure Rearranges (C C' : Catalog) (r r' : Descriptor) : Prop where
  constructible : r.constructible C = r'.constructible C'
  members : ∃ others, others.Perm (r'.members C') ∧
    List.Forall₂ (fun m m' => m.1 = m'.1 ∧ Twin m.2 m'.2) (r.members C) others

/-- The second root is the first one with the members of any of its records in another order. Every
record of a name is rearranged to every record of the name, so a name stands for one definition. -/
structure Rearranged (C C' : Catalog) (root root' : Descriptor) : Prop where
  twin : Twin root root'
  records : ∀ r r', Reaches C root r → Reaches C' root' r' → r.isRecord = true →
    r'.isRecord = true → r.name = r'.name → Rearranges C C' r r'

/-- The records that the root leads to have well-formed names. -/
def WellNamed (C : Catalog) (root : Descriptor) : Prop :=
  ∀ r, Reaches C root r → r.isRecord = true → TypeName.WellFormed r.name

variable {C C' : Catalog} {root root' d d' d'' r r' : Descriptor} {m m' : String × Descriptor}

theorem Twin.alike (h : Twin d d') : Alike d d' := by
  induction h with
  | primitive p => exact .primitive p
  | parameter i => exact .parameter i
  | sequence _ ih => exact .sequence ih
  | record isRecord isRecord' same => exact .record isRecord isRecord' same

theorem Twin.refl (d : Descriptor) : Twin d d := by
  induction d with
  | primitive p => exact .primitive p
  | parameter i => exact .parameter i
  | sequence _ _ ih => exact .sequence ih
  | declared => exact .record rfl rfl rfl
  | built => exact .record rfl rfl rfl

theorem Twin.symm (h : Twin d d') : Twin d' d := by
  induction h with
  | primitive p => exact .primitive p
  | parameter i => exact .parameter i
  | sequence _ ih => exact .sequence ih
  | record isRecord isRecord' same => exact .record isRecord' isRecord same.symm

theorem Twin.trans (h : Twin d d') (h' : Twin d' d'') : Twin d d'' := by
  induction h generalizing d'' with
  | primitive p => exact h'
  | parameter i => exact h'
  | sequence _ ih =>
    cases h' with
    | sequence h' => exact .sequence (ih h')
    | record no _ _ => cases no
  | record isRecord isRecord' same =>
    cases h' with
    | record _ isRecord'' same' => exact .record isRecord isRecord'' (same.trans same')
    | _ => cases isRecord'

theorem Twin.innermost (h : Twin d d') : Twin d.innermost d'.innermost := by
  induction h with
  | sequence _ ih => exact ih
  | record isRecord isRecord' same =>
    rw [innermost_of_isRecord isRecord, innermost_of_isRecord isRecord']
    exact .record isRecord isRecord' same
  | primitive p => exact .primitive p
  | parameter i => exact .parameter i

theorem Twin.arrays (h : Twin d d') (levels : Nat) : Twin (d.arrays levels) (d'.arrays levels) := by
  induction levels with
  | zero => exact h
  | succ levels ih => exact .sequence ih

/-! ## One record -/

theorem Rearranges.symm (h : Rearranges C C' r r') : Rearranges C' C r' r := by
  obtain ⟨others, perm, twins⟩ := h.members
  obtain ⟨back, twins', perm'⟩ := List.perm_comp_forall₂ perm.symm twins.flip
  refine ⟨h.constructible.symm, back, perm', twins'.imp ?_⟩
  rintro m' m ⟨same, twin⟩
  exact ⟨same.symm, twin.symm⟩

theorem Rearranges.exists_member (h : Rearranges C C' r r') (mem : m ∈ r.members C) :
    ∃ m' ∈ r'.members C', m.1 = m'.1 ∧ Twin m.2 m'.2 := by
  obtain ⟨others, perm, twins⟩ := h.members
  obtain ⟨m', mem', twin⟩ := partner_right twins mem
  exact ⟨m', perm.subset mem', twin⟩

theorem Rearranges.perm_map {α : Type} {f : String × Descriptor → α} (h : Rearranges C C' r r')
    (common : ∀ m m', m.1 = m'.1 → Twin m.2 m'.2 → f m = f m') :
    ((r.members C).map f).Perm ((r'.members C').map f) := by
  obtain ⟨others, perm, twins⟩ := h.members
  rw [map_eq_map (twins.imp fun m m' twin => common m m' twin.1 twin.2)]
  exact perm.map f

theorem Rearranges.names (h : Rearranges C C' r r') :
    ((r.members C).map Prod.fst).Perm ((r'.members C').map Prod.fst) :=
  h.perm_map fun _ _ same _ => same

/-! ## All records -/

theorem Rearranged.symm (h : Rearranged C C' root root') : Rearranged C' C root' root :=
  ⟨h.twin.symm, fun r' r reached' reached isRecord' isRecord same =>
    (h.records r r' reached reached' isRecord isRecord' same.symm).symm⟩

theorem Rearranged.exists_reached (h : Rearranged C C' root root') (reached : Reaches C root d) :
    ∃ d', Reaches C' root' d' ∧ Twin d d' := by
  induction reached with
  | root => exact ⟨root', .root, h.twin⟩
  | element _ ih =>
    obtain ⟨s, reached', twin⟩ := ih
    cases twin with
    | sequence twin => exact ⟨_, reached'.element, twin⟩
    | record no _ _ => cases no
  | @member r m reached mem ih =>
    obtain ⟨r', reached', twin⟩ := ih
    have isRecord := isRecord_of_mem_members mem
    have rearranges := h.records r r' reached reached' isRecord (twin.alike.isRecord isRecord)
      twin.alike.name_eq
    obtain ⟨m', mem', -, twin'⟩ := rearranges.exists_member mem
    exact ⟨m'.2, reached'.member mem', twin'⟩

theorem Rearranged.exists_record (h : Rearranged C C' root root') (reached : Reaches C root r)
    (isRecord : r.isRecord = true) :
    ∃ r', Reaches C' root' r' ∧ r'.isRecord = true ∧ r'.name = r.name ∧ Rearranges C C' r r' := by
  obtain ⟨r', reached', twin⟩ := h.exists_reached reached
  have isRecord' := twin.alike.isRecord isRecord
  have same := twin.alike.name_eq
  exact ⟨r', reached', isRecord', same.symm, h.records r r' reached reached' isRecord isRecord' same⟩

theorem Rearranged.definite (h : Rearranged C C' root root') : Definite C root := by
  intro r₁ r₂ reached₁ reached₂ isRecord₁ isRecord₂ same
  obtain ⟨r', reached', isRecord', same', first⟩ := h.exists_record reached₁ isRecord₁
  have second := (h.records r₂ r' reached₂ reached' isRecord₂ isRecord'
    (same.symm.trans same'.symm)).symm
  refine ⟨first.constructible.trans second.constructible, first.names.trans second.names, ?_⟩
  intro m mem
  obtain ⟨m', mem', named, twin⟩ := first.exists_member mem
  obtain ⟨m₂, mem₂, named', twin'⟩ := second.exists_member mem'
  exact ⟨m₂, mem₂, named.trans named', (twin.trans twin').alike⟩

theorem Rearranged.clear (h : Rearranged C C' root root') (clear : Clear C root) :
    Clear C' root' := by
  intro d' reached' obstructed
  obtain ⟨d, reached, twin⟩ := h.symm.exists_reached reached'
  refine clear d reached ?_
  cases obstructed with
  | decimal =>
    cases twin with
    | primitive => exact .decimal
    | record no _ _ => cases no
  | parameter i =>
    cases twin with
    | parameter => exact .parameter i
    | record no _ _ => cases no
  | noDefault isRecord' stuck =>
    have isRecord := twin.alike.isRecord isRecord'
    have rearranges := h.records d d' reached reached' isRecord isRecord' twin.alike.name_eq.symm
    exact .noDefault isRecord (rearranges.constructible.trans stuck)
  | duplicate isRecord' twice =>
    have isRecord := twin.alike.isRecord isRecord'
    have rearranges := h.records d d' reached reached' isRecord isRecord' twin.alike.name_eq.symm
    exact .duplicate isRecord fun unique => twice (rearranges.names.nodup_iff.mp unique)

theorem Rearranged.embeds (h : Rearranged C C' root root') {name other : String}
    (embeds : Embeds C root name other) : Embeds C' root' name other := by
  obtain ⟨r, reached, rfl, m, mem, isRecord, rfl⟩ := embeds
  obtain ⟨r', reached', -, same, rearranges⟩ :=
    h.exists_record reached (isRecord_of_mem_members mem)
  obtain ⟨m', mem', -, twin⟩ := rearranges.exists_member mem
  exact ⟨r', reached', same, m', mem', twin.alike.innermost.isRecord isRecord,
    twin.alike.innermost.name_eq.symm⟩

theorem Rearranged.wellNamed (h : Rearranged C C' root root') (named : WellNamed C root) :
    WellNamed C' root' := by
  intro r' reached' isRecord'
  obtain ⟨r, reached, isRecord, same, -⟩ := h.symm.exists_record reached' isRecord'
  exact same ▸ named r reached isRecord

/-! ## Permuted declarations -/

section Permuted

variable (perm : ∀ id, (C'.declaration id).fields.Perm (C.declaration id).fields)

include perm

theorem perm_members_of_declarations (d : Descriptor) : (d.members C').Perm (d.members C) := by
  cases d with
  | declared id args => exact (((perm id).filter _).map _).map _
  | _ => exact .refl _

theorem Reaches.of_declarations (h : Reaches C' root d) : Reaches C root d := by
  induction h with
  | root => exact .root
  | element _ ih => exact ih.element
  | member _ mem ih => exact ih.member ((perm_members_of_declarations perm _).subset mem)

theorem rearranged_of_declarations
    (constructible : ∀ id, (C'.declaration id).constructible = (C.declaration id).constructible)
    (unique : ∀ r r', Reaches C root r → Reaches C root r' → r.isRecord = true →
      r'.isRecord = true → r.name = r'.name → r = r') : Rearranged C C' root root := by
  refine ⟨.refl root, fun r r' reached reached' isRecord isRecord' same => ?_⟩
  obtain rfl := unique r r' reached (reached'.of_declarations perm) isRecord isRecord' same
  refine ⟨?_, _, (perm_members_of_declarations perm r).symm,
    List.forall₂_same.mpr fun m _ => ⟨rfl, .refl m.2⟩⟩
  cases r with
  | declared id args => exact (constructible id).symm
  | _ => rfl

end Permuted

end Descriptor

open Descriptor

namespace Extraction

variable {C C' : Catalog} {root root' r r' : Descriptor} {ext ext' : Extraction}

theorem accepted_of_definite (definite : Definite C root) (bounded : Bounded C root)
    (extracted : ofDescriptor C root = .ok ext) :
    Clear C root ∧ ¬ ∃ name, TransGen (Embeds C root) name name := by
  rcases ofDescriptor_of_definite definite bounded with
    ⟨_, -, accepted⟩ | ⟨_, _, failed, -⟩ | ⟨_, failed, -⟩
  · exact accepted
  · cases extracted.symm.trans failed
  · cases extracted.symm.trans failed

/-- What is extracted in one order is extracted in any other one. -/
theorem exists_rearranged (h : Rearranged C C' root root') (bounded : Bounded C root)
    (bounded' : Bounded C' root') (extracted : ofDescriptor C root = .ok ext) :
    ∃ ext', ofDescriptor C' root' = .ok ext' := by
  obtain ⟨clear, acyclic⟩ := accepted_of_definite h.definite bounded extracted
  rcases ofDescriptor_of_definite h.symm.definite bounded' with
    ⟨ext', extracted', -⟩ | ⟨_, _, -, obstructed⟩ | ⟨_, -, -, ⟨name, cycle⟩, -⟩
  · exact ⟨ext', extracted'⟩
  · exact absurd (h.clear clear) obstructed
  · exact absurd ⟨name, cycle.lift id fun _ _ => h.symm.embeds⟩ acyclic

theorem arranged_of_wellNamed (definite : Definite C root) (wellNamed : WellNamed C root)
    (extracted : ofDescriptor C root = .ok ext) : ext.schema.Arranged :=
  arranged_schema extracted fun r hr => by
    obtain ⟨isRecord, reached, -⟩ :=
      (Discovery.reached_of_definite definite (ofDescriptor_eq_ok extracted).1).1 r hr
    exact wellNamed r reached isRecord

theorem node_eq_of_rearranges (h : Rearranges C C' r r') (named : r.name = r'.name)
    (unique : ((r.members C).map Prod.fst).Nodup) : (entry C r).node = (entry C' r').node := by
  have perm : ((r.members C).map fun m => (m.1, m.2.name)).Perm
      ((r'.members C').map fun m => (m.1, m.2.name)) :=
    h.perm_map fun _ _ same twin => Prod.ext same twin.alike.name_eq
  have same := Fields.ofList_eq_of_perm (by rwa [List.map_map]) perm
  have children_eq : children C r = children C' r' :=
    congrArg (fun fields => fields.map fun p => Node.member p.1 p.2) same
  rw [entry, entry, named, children_eq]

theorem subset_types (h : Rearranged C C' root root') (extracted : ofDescriptor C root = .ok ext)
    (extracted' : ofDescriptor C' root' = .ok ext') : ext.schema.types ⊆ ext'.schema.types := by
  intro node mem
  obtain ⟨r, hr, rfl⟩ := (mem_types extracted).mp mem
  have found := (ofDescriptor_eq_ok extracted).1
  have found' := (ofDescriptor_eq_ok extracted').1
  obtain ⟨isRecord, reached, closed⟩ := (Discovery.reached_of_definite h.definite found).1 r hr
  obtain ⟨r₁, reached₁, isRecord₁, same₁, -⟩ := h.exists_record reached isRecord
  have listed := (Discovery.mem_names_of_definite h.symm.definite found').mpr
    ⟨r₁, reached₁, isRecord₁, same₁⟩
  obtain ⟨r', hr', same⟩ := List.mem_map.mp listed
  obtain ⟨isRecord', reached', -⟩ := (Discovery.reached_of_definite h.symm.definite found').1 r' hr'
  have rearranges := h.records r r' reached reached' isRecord isRecord' same.symm
  rw [node_eq_of_rearranges rearranges same.symm closed.unique]
  exact (mem_types extracted').mpr ⟨r', hr', rfl⟩

theorem perm_types (h : Rearranged C C' root root') (extracted : ofDescriptor C root = .ok ext)
    (extracted' : ofDescriptor C' root' = .ok ext') :
    ext.schema.types.Perm ext'.schema.types := by
  have apart : ∀ {nodes : List Node}, (nodes.map Node.typeName).Nodup → nodes.Nodup :=
    fun unique => .of_map _ unique
  refine (List.perm_ext_iff_of_nodup (apart (nodup_types extracted))
    (apart (nodup_types extracted'))).mpr fun node => ⟨?_, ?_⟩
  · exact fun mem => subset_types h extracted extracted' mem
  · exact fun mem => subset_types h.symm extracted' extracted mem

end Extraction

end SchemaCodec
