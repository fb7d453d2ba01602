import SchemaCodec.Proofs.Engine.Extraction
import SchemaCodec.Proofs.Registry.Resolution
import SchemaCodec.Proofs.Schema.Listing

/-! # Declarations that are upheld

Once the records of a set are declared, a registry that is given names and schemas of any kind
leaves them alone: the name of each resolves to the declared description, and what is made from
schemas is made under other names.
-/

namespace SchemaCodec

open SchemaCodec.Action MessageType Discovery

namespace Catalog

/-- The declared records in the description, at any depth, are records of the set. -/
inductive Confined (C : Catalog) (types : Set MessageType) : Descriptor → Prop

  | primitive (p : Primitive) : Confined C types (.primitive p)

  | parameter (index : Nat) : Confined C types (.parameter index)

  | sequence {container : Container} {d : Descriptor} : Confined C types d →
      Confined C types (.sequence container d)

  | declared {id : RecordId} {args : List MessageType} : C.Occurs types (.record id args) →
      Confined C types (.declared id args)

  | built {name short : String} {members : List (String × Descriptor)} :
      (∀ p ∈ members, Confined C types p.2) →
      Confined C types (.built name short .synthesized members)

def DeclaredAs (C : Catalog) (types : Set MessageType) (name : String) (d : Descriptor) : Prop :=
  ∃ id args, d = .declared id args ∧ C.Occurs types (.record id args) ∧
    (MessageType.record id args).name = name

/-- The declarations are those of all records of the set, whose members can be told apart by
name. -/
structure Enlists (C : Catalog) (types : Set MessageType) (declared : Cache String Descriptor) :
    Prop where
  consistent : C.Consistent types
  unique : ∀ id args, C.Occurs types (.record id args) →
    ((C.members id args).map Prod.fst).Nodup
  sound : ∀ name d, declared.get? name = some d → C.DeclaredAs types name d
  complete : ∀ id args, C.Occurs types (.record id args) →
    ∃ d, declared.get? (MessageType.record id args).name = some d

/-- The description is confined to the set, and it is the declared one if the name is declared. -/
structure Upholds (C : Catalog) (types : Set MessageType) (declared : Cache String Descriptor)
    (name : String) (d : Descriptor) : Prop where
  confined : C.Confined types d
  same : ∀ d', declared.get? name = some d' → d = d'

variable {C : Catalog} {types : Set MessageType} {declared : Cache String Descriptor}
  {t : MessageType} {d : Descriptor} {name : String} {id : RecordId} {args : List MessageType}

theorem confined_describe (occurs : C.Occurs types t) : C.Confined types t.describe := by
  induction t with
  | primitive p => exact .primitive p
  | parameter i => exact .parameter i
  | sequence storage element ih => exact .sequence (ih occurs.element)
  | record id args => exact .declared occurs

theorem Confined.arrays (h : C.Confined types d) (levels : Nat) :
    C.Confined types (d.arrays levels) := by
  induction levels with
  | zero => exact h
  | succ levels ih => exact .sequence ih

theorem hereditary_confined (C : Catalog) (types : Set MessageType) :
    Hereditary C (C.Confined types) where
  innermost := by
    intro d h
    induction h with
    | primitive p => exact .primitive p
    | parameter i => exact .parameter i
    | sequence _ ih => exact ih
    | declared occurs => exact .declared occurs
    | built members => exact .built members
  member := by
    intro d h m mem
    cases h with
    | declared occurs =>
      obtain ⟨⟨name, t⟩, member, rfl⟩ := List.mem_map.mp mem
      exact confined_describe (occurs.member member)
    | built members => exact members m mem
    | _ => cases mem

theorem DeclaredAs.confined (h : C.DeclaredAs types name d) : C.Confined types d := by
  obtain ⟨id, args, rfl, occurs, -⟩ := h
  exact .declared occurs

theorem DeclaredAs.isRecord (h : C.DeclaredAs types name d) : d.isRecord = true := by
  obtain ⟨id, args, rfl, -⟩ := h
  rfl

theorem DeclaredAs.name_eq (h : C.DeclaredAs types name d) : d.name = name := by
  obtain ⟨id, args, rfl, -, named⟩ := h
  exact named

theorem Enlists.wellFormed (h : C.Enlists types declared) (listed : declared.get? name = some d) :
    TypeName.WellFormed name := by
  obtain ⟨id, args, -, occurs, rfl⟩ := h.sound name d listed
  exact h.consistent.wellFormed id args occurs

theorem Enlists.depicts (h : C.Enlists types declared) (occurs : C.Occurs types (.record id args))
    (upholds : C.Upholds types declared (MessageType.record id args).name d) :
    Depicts C C types d (.record id args) := by
  obtain ⟨d', listed⟩ := h.complete id args occurs
  obtain rfl := upholds.same d' listed
  obtain ⟨id', args', rfl, occurs', same⟩ := h.sound _ _ listed
  exact .declared rfl occurs' same

end Catalog

open Catalog

namespace Registry

/-- Nothing was resolved yet, and only records of the set are declared. -/
structure Pristine (C : Catalog) (types : Set MessageType) (r : Registry) : Prop where
  generics : r.generics = .empty
  resolved : r.resolved = .empty
  declared : ∀ name d, r.declared.get? name = some d → C.DeclaredAs types name d

/-- The registry knows nothing generic, it has the given declarations, and whatever was resolved
upholds them. -/
structure Guarded (C : Catalog) (types : Set MessageType) (declared : Cache String Descriptor)
    (r : Registry) : Prop where
  generics : r.generics = .empty
  declared_eq : r.declared = declared
  resolved : ∀ name d, r.resolved.get? name = some d → C.Upholds types declared name d

variable {C : Catalog} {types : Set MessageType} {declared : Cache String Descriptor}
  {r : Registry} {d : Descriptor} {name base : String} {records : List Descriptor}

theorem Guarded.note (h : Guarded C types declared r) (upholds : C.Upholds types declared name d) :
    Guarded C types declared (r.note name d) where
  generics := h.generics
  declared_eq := h.declared_eq
  resolved := by
    intro other d' found
    rcases Cache.get?_add_eq_some found with old | ⟨-, rfl, rfl⟩
    · exact h.resolved other d' old
    · exact upholds

/-! ## Declarations -/

theorem pristine_empty (C : Catalog) (types : Set MessageType) : Pristine C types empty :=
  ⟨rfl, rfl, fun _ _ no => by cases no⟩

theorem Pristine.guarded (h : Pristine C types r) : Guarded C types r.declared r :=
  ⟨h.generics, rfl, fun _ _ no => by cases h.resolved ▸ no⟩

theorem pristine_declareAll (own : ∀ d ∈ records, C.DeclaredAs types d.name d) :
    (Engine.declareAll C records).Keeps (Pristine C types) (fun _ => True) fun _ => True := by
  apply keeps_declareAll fun d hd _ => keeps_declare fun r h _ => ?_
  refine ⟨h.generics, h.resolved, fun name d' found => ?_⟩
  rcases Cache.get?_add_eq_some found with old | ⟨-, rfl, rfl⟩
  · exact h.declared name d' old
  · exact own d' hd

theorem guarded_declareAll (enlists : C.Enlists types declared)
    (confined : ∀ d ∈ records, C.Confined types d)
    (isRecord : ∀ d ∈ records, d.isRecord = true) :
    (Engine.declareAll C records).Keeps (Guarded C types declared) (fun _ => True)
      fun _ => True := by
  apply keeps_declareAll fun d hd made => keeps_declare fun r h new => ?_
  have record := isRecord d hd
  cases confined d hd with
  | @declared id args occurs =>
    obtain ⟨d', listed⟩ := enlists.complete id args occurs
    rw [h.declared_eq] at new
    cases new.symm.trans listed
  | built => exact absurd rfl made
  | _ => cases record

/-! ## Resolution -/

theorem guarded_addSynthesized {typeName : String} (new : declared.get? typeName = none)
    {members : List (String × Descriptor)} (confined : ∀ p ∈ members, C.Confined types p.2) :
    (addSynthesized typeName members).Keeps (Guarded C types declared) (fun _ => True)
      (C.Upholds types declared typeName) := by
  intro r h
  cases found : r.resolved.get? typeName with
  | some d =>
    unfold addSynthesized
    rw [ends_bind, ends_get, found]
    exact ⟨h, h.resolved typeName d found⟩
  | none =>
    rw [ends_addSynthesized found]
    have upholds : C.Upholds types declared typeName
        (.built typeName (TypeName.short typeName) .synthesized members) :=
      ⟨.built confined, fun d' listed => by cases new.symm.trans listed⟩
    have noted := h.note upholds
    exact ⟨⟨noted.generics, noted.declared_eq, noted.resolved⟩, upholds⟩

section Enlisted

variable (enlists : C.Enlists types declared)

include enlists

theorem Guarded.confined (h : Guarded C types declared r) (known : r.base? base = some d) :
    C.Confined types d := by
  rcases Option.or_eq_some_iff.mp known with known | ⟨-, known⟩
  · rcases Option.or_eq_some_iff.mp known with resolved | ⟨-, listed⟩
    · exact (h.resolved base d resolved).confined
    · exact (enlists.sound base d (h.declared_eq ▸ listed)).confined
  · obtain ⟨p, -, rfl⟩ := Option.map_eq_some_iff.mp known
    exact .primitive p

/-- Whatever a name resolves to upholds the declarations; only names that are not declared may be
missing. -/
theorem guarded_resolve (name : String) :
    (Registry.resolve name).Keeps (Guarded C types declared) (fun _ => declared.get? name = none)
      (C.Upholds types declared name) := by
  intro r h
  cases found : r.resolved.get? name with
  | some d =>
    rw [ends_resolve_known found]
    exact ⟨h, h.resolved name d found⟩
  | none =>
    obtain ⟨base, levels, split⟩ : ∃ base levels, TypeName.splitArrays name = (base, levels) :=
      ⟨_, _, rfl⟩
    have own : ∀ d, declared.get? name = some d → r.base? base = some d ∧ levels = 0 := by
      intro d listed
      have bare := TypeName.splitArrays_arrays (enlists.wellFormed listed).toAtomic 0
      obtain ⟨rfl, rfl⟩ := Prod.mk.inj (bare.symm.trans split)
      simp [base?, found, h.declared_eq, listed]
    rw [ends_resolve_new found split fun _ => plain_of_generics h.generics base]
    cases known : r.base? base with
    | some d =>
      have upholds : C.Upholds types declared name (d.arrays levels) := by
        refine ⟨(h.confined enlists known).arrays levels, fun d' listed => ?_⟩
        obtain ⟨same, rfl⟩ := own d' listed
        exact Option.some.inj (known.symm.trans same)
      exact ⟨h.note upholds, upholds⟩
    | none =>
      refine ⟨h, Option.eq_none_iff_forall_ne_some.mpr fun d listed => ?_⟩
      cases known.symm.trans (own d listed).1

theorem guarded_resolveNode (node : Node) :
    (resolveNode node).Keeps (Guarded C types declared)
      (fun _ => declared.get? node.typeName = none) (C.Upholds types declared node.typeName) := by
  induction node with
  | mk name typeName children ih =>
    have children_kept := keeps_resolveChildren (R := fun _ => True) (fun _ => trivial)
      (fun c hc => (ih c hc).mono (fun _ upholds => upholds.confined) fun _ _ => trivial) typeName
    intro r h
    rw [resolveNode.eq_def, ends_recover]
    apply (guarded_resolve enlists typeName r h).mono (fun _ _ done => done)
    rintro e r' ⟨h', missing⟩
    -- Only a missing name is made from a node, and the names of the records are never missing.
    split
    · exact ⟨h', missing⟩
    · next other caught =>
      split at caught
      · split at caught
        · cases caught
        · obtain rfl := Option.some.inj caught
          have made := children_kept.bind fun members confined =>
            guarded_addSynthesized missing confined
          exact (made.mono (fun _ upholds => upholds) fun _ _ => missing) r' h'
      · cases caught

end Enlisted

end Registry

end SchemaCodec
