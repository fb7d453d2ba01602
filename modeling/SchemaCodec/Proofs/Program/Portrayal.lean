import SchemaCodec.Proofs.Program.Depiction
import SchemaCodec.Proofs.Program.Legibility
import SchemaCodec.Proofs.Schema.Likeness

/-! # Faithful descriptions

A record that was made from a generic definition has the very members of the type of its name, in
the same order. Its members may still share a name, so it depicts the type only where extraction
accepts it.
-/

namespace SchemaCodec.Catalog

open MessageType Discovery

variable (C : Catalog) (types : Set MessageType)

/-- The description says of the type what the program says, as far as names can tell. Records are
described as they are declared, or as they were made from generic definitions. -/
inductive Portrays : Descriptor → MessageType → Prop

  | primitive (p : Primitive) : Portrays (.primitive p) (.primitive p)

  | sequence {container : Container} {storage : Storage} {d : Descriptor} {t : MessageType} :
      Portrays d t → Portrays (.sequence container d) (.sequence storage t)

  | declared {id id' : RecordId} {args args' : List MessageType} :
      C.Involves types (.record id args) → (record id args).name = (record id' args').name →
      Portrays (.declared id args) (.record id' args')

  | built {name short : String} {members : List (String × Descriptor)} {id : RecordId}
      {args : List MessageType} : name = (record id args).name →
      members.length = (C.members id args).length →
      (∀ p m, (p, m) ∈ members.zip (C.members id args) → p.1 = m.1) →
      (∀ p m, (p, m) ∈ members.zip (C.members id args) → Portrays p.2 m.2) →
      Portrays (.built name short .instantiated members) (.record id args)

variable {C types} {d r : Descriptor} {t t' : MessageType} {id : RecordId}
  {args : List MessageType} {found : List Descriptor} {ext : Extraction}

theorem portrays_built {name short : String} {members : List (String × Descriptor)}
    (named : name = (record id args).name)
    (related : List.Forall₂ (fun p m => p.1 = m.1 ∧ C.Portrays types p.2 m.2) members
      (C.members id args)) :
    C.Portrays types (.built name short .instantiated members) (.record id args) := by
  obtain ⟨length, each⟩ := List.forall₂_iff_zip.mp related
  exact .built named length (fun _ _ pair => (each pair).1) fun _ _ pair => (each pair).2

theorem portrays_describe (legible : C.Legible types) (involves : C.Involves types t) :
    C.Portrays types t.describe t := by
  induction t with
  | primitive p => exact .primitive p
  | parameter i => cases legible.bound involves
  | sequence storage element ih => exact .sequence (ih involves.element)
  | record id args => exact .declared involves rfl

namespace Portrays

theorem name_eq (h : C.Portrays types d t) : d.name = t.name := by
  induction h with
  | primitive p => rfl
  | sequence _ ih => exact congrArg TypeName.array ih
  | declared _ same => exact same
  | built same _ _ _ _ => exact same

theorem alike (h : C.Portrays types d t) : Descriptor.Alike d t.describe := by
  induction h with
  | primitive p => exact .primitive p
  | sequence _ ih => exact .sequence ih
  | declared _ same => exact .record rfl rfl same
  | built same _ _ _ _ => exact .record rfl rfl same

theorem arrays (h : C.Portrays types d t.innermost) :
    C.Portrays types (d.arrays t.levels) t := by
  induction t with
  | sequence storage element ih => exact .sequence (ih h)
  | _ => exact h

theorem innermost (h : C.Portrays types d t) : C.Portrays types d.innermost t.innermost := by
  induction h with
  | primitive p => exact .primitive p
  | sequence _ ih => exact ih
  | declared involves same => exact .declared involves same
  | built same length names each _ => exact .built same length names each

theorem of_alike (legible : C.Legible types) (h : C.Portrays types d t) (alike : Alike t t')
    (involves : C.Involves types t) (involves' : C.Involves types t') :
    C.Portrays types d t' := by
  induction h generalizing t' with
  | primitive p =>
    cases alike with
    | primitive => exact .primitive p
  | sequence _ ih =>
    cases alike with
    | sequence alike => exact .sequence (ih alike involves.element involves'.element)
  | declared known same =>
    cases alike with
    | record same' => exact .declared known (same.trans same')
  | @built name short members id args named length names _ ih =>
    cases alike with
    | @record _ id' _ args' same =>
      obtain ⟨length', alike⟩ := List.forall₂_iff_zip.mp
        (legible.members_alike involves involves' same)
      refine portrays_built (named.trans same)
        ((forall₂_comp (forall₂_zip length) (forall₂_zip length')).imp ?_)
      rintro p m' ⟨m, pair, pair'⟩
      obtain ⟨same', alike'⟩ := alike pair'
      obtain ⟨mem, mem'⟩ := List.of_mem_zip pair'
      exact ⟨(names p m pair).trans same',
        ih p m pair alike' (involves.member mem) (involves'.member mem')⟩

theorem members (legible : C.Legible types) (h : C.Portrays types d (.record id args))
    (involves : C.Involves types (.record id args)) :
    ∃ members, d.members? C = some members ∧
      List.Forall₂ (fun p m => p.1 = m.1 ∧ C.Portrays types p.2 m.2) members
        (C.members id args) := by
  cases h with
  | declared known same =>
    refine ⟨_, rfl, List.forall₂_map_left_iff.mpr ?_⟩
    obtain ⟨length, alike⟩ := List.forall₂_iff_zip.mp (legible.members_alike known involves same)
    refine (forall₂_zip length).imp fun m m' pair => ?_
    obtain ⟨same', alike'⟩ := alike pair
    obtain ⟨mem, mem'⟩ := List.of_mem_zip pair
    have portrays := portrays_describe legible (known.member mem)
    exact ⟨same', portrays.of_alike legible alike' (known.member mem) (involves.member mem')⟩
  | built _ length names each =>
    exact ⟨_, rfl, (forall₂_zip length).imp fun p m pair => ⟨names p m pair, each p m pair⟩⟩

theorem origin_ne (legible : C.Legible types) (h : C.Portrays types d t) :
    d.origin C ≠ .synthesized := by
  cases h with
  | declared involves _ => exact legible.declared _ _ involves
  | _ => exact Origin.noConfusion

theorem exists_record (h : C.Portrays types d t) (isRecord : d.isRecord = true) :
    ∃ id args, t = .record id args := by
  cases h with
  | declared => exact ⟨_, _, rfl⟩
  | built => exact ⟨_, _, rfl⟩
  | _ => cases isRecord

theorem depicts (legible : C.Legible types) (h : C.Portrays types d t)
    (involves : C.Involves types t) (covered : Covered found t.describe)
    (closed : ∀ r ∈ found, (∃ id args, C.Involves types (.record id args) ∧
      C.Portrays types r (.record id args)) ∧ Closed C found r) :
    Depicts C C (C.involved types) d t := by
  induction h with
  | primitive p => exact .primitive p
  | sequence _ ih => exact .sequence (ih involves.element covered)
  | declared known same => exact .declared rfl (occurs_involved.mpr known) same
  | @built name short own id args named length names _ ih =>
    obtain ⟨r, hr, same⟩ := covered.exists_found rfl
    obtain ⟨⟨id', args', involves', portrays⟩, closed'⟩ := closed r hr
    have sameRecord : (record id' args').name = (record id args).name :=
      portrays.name_eq.symm.trans same
    obtain ⟨others, known, related⟩ :=
      (portrays.of_alike legible (.record sameRecord) involves' involves).members legible involves
    have others_eq : r.members C = others := by rw [Descriptor.members, known]; rfl
    have unique : ((C.members id args).map Prod.fst).Nodup := by
      rw [← map_eq_map (related.imp fun _ _ same => same.1), ← others_eq]
      exact closed'.unique
    have inner : ∀ p m, (p, m) ∈ own.zip (C.members id args) →
        Depicts C C (C.involved types) p.2 m.2 := by
      intro p m pair
      obtain ⟨-, mem⟩ := List.of_mem_zip pair
      obtain ⟨q, hq, -, portrays'⟩ := partner_left related mem
      have covered' := (closed'.covered q (others_eq ▸ hq)).alike portrays'.alike
      exact ih p m pair (involves.member mem) covered'
    have pairs := forall₂_zip length
    refine .built named unique ?_ ?_ ?_
    · intro m mem
      obtain ⟨p, hp, pair⟩ := partner_left pairs mem
      exact ⟨p, hp, names p m pair⟩
    · intro p hp
      obtain ⟨m, mem, pair⟩ := partner_right pairs hp
      exact ⟨m.2, by rw [names p m pair]; exact mem⟩
    · intro p hp t mem
      obtain ⟨m, mem', pair⟩ := partner_right pairs hp
      rw [names p m pair] at mem
      have found := lookup_of_mem unique mem
      rw [lookup_of_mem unique mem'] at found
      exact Option.some.inj found ▸ inner p m pair

end Portrays

/-! ## Extraction -/

theorem innermost_describe (t : MessageType) : t.describe.innermost = t.innermost.describe := by
  induction t with
  | sequence _ _ ih => exact ih
  | _ => rfl

theorem hereditary_portrays (legible : C.Legible types) :
    Hereditary C fun d => ∃ t, C.Involves types t ∧ C.Portrays types d t where
  innermost := by
    rintro d ⟨t, involves, portrays⟩
    exact ⟨t.innermost, involves.innermost, portrays.innermost⟩
  member := by
    rintro d ⟨t, involves, portrays⟩ p mem
    obtain ⟨id, args, rfl⟩ := portrays.exists_record (Descriptor.isRecord_of_mem_members mem)
    obtain ⟨members, known, related⟩ := portrays.members legible involves
    rw [Descriptor.members, known] at mem
    obtain ⟨m, hm, -, inner⟩ := partner_right related mem
    exact ⟨m.2, involves.member hm, inner⟩

/-- The records that are met in extracting a description of a type are closed descriptions of
records, and they cover the type. -/
theorem closed_of_portrayed (legible : C.Legible types) (h : C.Portrays types d t)
    (involves : C.Involves types t) (accepted : Extraction.ofDescriptor C d = .ok ext) :
    (∀ r ∈ ext.records, (∃ id args, C.Involves types (.record id args) ∧
      C.Portrays types r (.record id args)) ∧ Closed C ext.records r) ∧
      Covered ext.records t.describe := by
  obtain ⟨closed, covered⟩ := closed_records (hereditary_portrays legible) ⟨t, involves, h⟩
    (Extraction.ofDescriptor_eq_ok accepted).1
  refine ⟨fun r mem => ?_, covered.alike h.alike⟩
  obtain ⟨isRecord, ⟨t', involves', portrays⟩, hr⟩ := closed r mem
  obtain ⟨id, args, rfl⟩ := portrays.exists_record isRecord
  exact ⟨⟨id, args, involves', portrays⟩, hr⟩

theorem simulates_portrays (legible : C.Legible types) :
    Descriptor.Simulates C fun d d' =>
      ∃ t, d = t.describe ∧ C.Involves types t ∧ C.Portrays types d' t where
  alike := by
    rintro _ d ⟨t, rfl, -, portrays⟩
    exact portrays.alike.symm
  innermost := by
    rintro _ d ⟨t, rfl, involves, portrays⟩
    exact ⟨t.innermost, innermost_describe t, involves.innermost, portrays.innermost⟩
  constructible := by
    rintro _ d ⟨t, rfl, involves, portrays⟩ constructible
    cases portrays with
    | declared known same =>
      obtain rfl := legible.one _ _ _ _ known involves same
      exact constructible
    | _ => rfl
  members := by
    rintro _ d ⟨t, rfl, involves, portrays⟩
    cases t with
    | record id args =>
      obtain ⟨members, known, related⟩ := portrays.members legible involves
      rw [Descriptor.members, Descriptor.members, known]
      refine List.forall₂_map_left_iff.mpr ?_
      obtain ⟨length, each⟩ := List.forall₂_iff_zip.mp related.flip
      refine (forall₂_zip length).imp fun m p pair => ?_
      obtain ⟨same, inner⟩ := each pair
      exact ⟨same.symm, m.2, rfl, involves.member (List.of_mem_zip pair).1, inner⟩
    | primitive p =>
      cases portrays with
      | primitive => exact .nil
    | parameter i => cases portrays
    | sequence storage element =>
      cases portrays with
      | sequence => exact .nil

theorem accepts_portrayed (legible : C.Legible types) (h : C.Portrays types d t)
    (involves : C.Involves types t) (accepted : Extraction.ofDescriptor C t.describe = .ok ext) :
    ∃ ext', Extraction.ofDescriptor C d = .ok ext' ∧ ext'.schema.types = ext.schema.types :=
  Extraction.ofDescriptor_simulates (simulates_portrays legible) ⟨t, rfl, involves, h⟩ accepted

end SchemaCodec.Catalog
