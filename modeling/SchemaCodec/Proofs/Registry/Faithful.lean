import SchemaCodec.Proofs.Engine.Extraction
import SchemaCodec.Proofs.Registry.Resolution
import SchemaCodec.Proofs.Schema.Listing
import SchemaCodec.Proofs.TypeName.Parameters

/-! # What is known of a set of types

A registry that has only been told of types of a consistent set, as the program declares them or as
schemas list them, knows under every name a description of a type of that name. Whatever came
first, a name resolves to such a description, or nothing is known of it.
-/

namespace SchemaCodec

open SchemaCodec.Action MessageType

variable {K C : Catalog} {types : Set MessageType} {t : MessageType} {d : Descriptor}
  {name : String}
  {id : RecordId} {args : List MessageType}

namespace Catalog

/-- The description is one of a type of the set that has the name. -/
def Describes (K C : Catalog) (types : Set MessageType) (name : String) (d : Descriptor) : Prop :=
  ∃ t, C.Occurs types t ∧ Bound t ∧ t.name = name ∧ Depicts K C types d t

theorem Describes.depicts (consistent : C.Consistent types) (h : Describes K C types t.name d)
    (occurs : C.Occurs types t) (bound : Bound t) : Depicts K C types d t := by
  obtain ⟨t', occurs', bound', same, depicts⟩ := h
  have alike := consistent.alike bound' bound occurs' occurs same
  exact depicts.of_alike consistent alike occurs' occurs

theorem Describes.arrays (h : Describes K C types name d)
    (spans : ∀ storage t, C.Occurs types t → C.Occurs types (.sequence storage t))
    (levels : Nat) : Describes K C types (TypeName.arrays name levels) (d.arrays levels) := by
  induction levels with
  | zero => exact h
  | succ levels ih =>
    obtain ⟨t, occurs, bound, named, depicts⟩ := ih
    exact ⟨.sequence .vector t, spans _ _ occurs, .sequence bound, congrArg TypeName.array named,
      .sequence depicts⟩

/-- The name of a type is an atomic one under marks of sequences, and what is known of the type
under its sequences tells what is known of it. -/
theorem exists_base (consistent : C.Consistent types) (occurs : C.Occurs types t) :
    ∃ base levels, t.name = TypeName.arrays base.name levels ∧ C.Occurs types base ∧
      TypeName.Atomic base.name ∧ (∀ p, Primitive.ofSpelling? base.name = some p →
        base = .primitive p) ∧ (Bound t → Bound base) ∧
      (∀ d, Depicts K C types d base → Depicts K C types (d.arrays levels) t) ∧
      ∀ id args, t = .record id args → base = t ∧ levels = 0 := by
  induction t with
  | primitive p =>
    refine ⟨.primitive p, 0, rfl, occurs, TypeName.atomic_name p, ?_, fun h => h, fun _ h => h,
      fun _ _ _ => ⟨rfl, rfl⟩⟩
    intro q spelled
    obtain rfl := Option.some.inj ((TypeName.ofSpelling?_name p).symm.trans spelled)
    rfl
  | parameter i =>
    refine ⟨.parameter i, 0, rfl, occurs, TypeName.atomic_parameter i, ?_, fun h => h,
      fun _ h => h, fun _ _ _ => ⟨rfl, rfl⟩⟩
    intro q spelled
    cases (TypeName.ofSpelling?_parameter i).symm.trans spelled
  | sequence storage element ih =>
    obtain ⟨base, levels, named, listed, atomic, spelled, bound, depicts, -⟩ := ih occurs.element
    refine ⟨base, levels + 1, congrArg TypeName.array named, listed, atomic, spelled, ?_, ?_, ?_⟩
    · intro h
      cases h with
      | sequence h => exact bound h
    · intro d h
      exact .sequence (depicts d h)
    · intro id args no
      cases no
  | record id args _ =>
    have wellFormed := consistent.wellFormed id args occurs
    refine ⟨.record id args, 0, rfl, occurs, wellFormed.toAtomic, ?_, fun h => h, fun _ h => h,
      fun _ _ _ => ⟨rfl, rfl⟩⟩
    intro q spelled
    cases wellFormed.foreign.symm.trans spelled

end Catalog

open Catalog

namespace Registry

/-- Nothing generic is known, and every other type that is known is described as a type of the set
of that name. -/
structure Faithful (K C : Catalog) (types : Set MessageType) (r : Registry) : Prop where
  generics : r.generics = .empty
  declared : ∀ name d, r.declared.get? name = some d → Describes K C types name d
  resolved : ∀ name d, r.resolved.get? name = some d → Describes K C types name d

variable {r : Registry} {records : List Descriptor}

theorem faithful_empty (K C : Catalog) (types : Set MessageType) : Faithful K C types empty :=
  ⟨rfl, (fun _ _ no => nomatch no), fun _ _ no => nomatch no⟩

theorem Faithful.plain (h : Faithful K C types r) (base : String) : r.application? base = none :=
  plain_of_generics h.generics base

theorem Faithful.note (h : Faithful K C types r) (describes : Describes K C types name d) :
    Faithful K C types (r.note name d) := by
  refine ⟨h.generics, h.declared, ?_⟩
  intro other d' found
  rcases Cache.get?_add_eq_some found with old | ⟨-, rfl, rfl⟩
  · exact h.resolved other d' old
  · exact describes

/-! ## Declarations -/

theorem Faithful.declare (h : Faithful K C types r) (describes : Describes K C types d.name d) :
    Faithful K C types { r with declared := r.declared.add d.name d } := by
  refine ⟨h.generics, ?_, h.resolved⟩
  intro other d' found
  rcases Cache.get?_add_eq_some found with old | ⟨-, rfl, rfl⟩
  · exact h.declared other d' old
  · exact describes

theorem ends_declareAll (h : Faithful K C types r)
    (describes : ∀ d ∈ records, Describes K C types d.name d) :
    (Engine.declareAll K records).Ends r
      (fun _ r' => Faithful K C types r' ∧ (∀ other, r.Declares other → r'.Declares other) ∧
        ∀ d ∈ records, d.origin K ≠ .synthesized → r'.Declares d.name)
      fun _ _ => False := by
  have faithful : (Engine.declareAll K records).Keeps (Faithful K C types) (fun _ => True)
      fun _ => True :=
    keeps_declareAll fun d hd _ => keeps_declare fun r h _ => h.declare (describes d hd)
  exact ((faithful r h).and (ends_declareAll_declares K records r)).mono
    (fun _ _ done => ⟨done.1.1, done.2⟩) fun _ _ no => no.2

/-! ## Resolution -/

theorem Faithful.base? (h : Faithful K C types r) (occurs : C.Occurs types t)
    (spelled : ∀ p, Primitive.ofSpelling? t.name = some p → t = .primitive p)
    (known : r.base? t.name = some d) : Describes K C types t.name d := by
  rcases Option.or_eq_some_iff.mp known with known | ⟨-, known⟩
  · rcases Option.or_eq_some_iff.mp known with resolved | ⟨-, declared⟩
    · exact h.resolved _ d resolved
    · exact h.declared _ d declared
  · obtain ⟨p, found, rfl⟩ := Option.map_eq_some_iff.mp known
    obtain rfl := spelled p found
    exact ⟨_, occurs, .primitive p, rfl, .primitive p⟩

theorem ends_resolve_bound (consistent : C.Consistent types) (h : Faithful K C types r)
    (occurs : C.Occurs types t) (bound : Bound t) :
    (Registry.resolve t.name).Ends r
      (fun d r' => Faithful K C types r' ∧ r'.declared = r.declared ∧ Depicts K C types d t)
      fun e r' => e = .typeNotFound t.name ∧ r' = r ∧
        ∀ id args, t = .record id args → ¬ r.Declares t.name := by
  cases found : r.resolved.get? t.name with
  | some d =>
    rw [ends_resolve_known found]
    exact ⟨h, rfl, (h.resolved _ d found).depicts consistent occurs bound⟩
  | none =>
    obtain ⟨base, levels, named, listed, atomic, spelled, under, depicts, record⟩ :=
      exists_base (K := K) consistent occurs
    have split : TypeName.splitArrays t.name = (base.name, levels) := by
      rw [named]
      exact TypeName.splitArrays_arrays atomic levels
    rw [ends_resolve_new found split fun _ => h.plain base.name]
    cases known : r.base? base.name with
    | some d =>
      have describes := h.base? listed spelled known
      have typed := depicts d (describes.depicts consistent listed (under bound))
      exact ⟨h.note ⟨t, occurs, bound, rfl, typed⟩, rfl, typed⟩
    | none =>
      refine ⟨rfl, rfl, ?_⟩
      rintro id args same ⟨d, declared⟩
      obtain ⟨rfl, -⟩ := record id args same
      rw [Registry.base?, found, declared] at known
      cases known

theorem ends_resolve_declared (consistent : C.Consistent types) (h : Faithful K C types r)
    (occurs : C.Occurs types t) (bound : Bound t)
    (declared : ∀ id args levels, C.Occurs types (.record id args) →
      t.name = TypeName.arrays (record id args).name levels → r.Declares (record id args).name) :
    (Registry.resolve t.name).Ends r
      (fun d r' => Faithful K C types r' ∧ r'.declared = r.declared ∧ Depicts K C types d t)
      fun _ _ => False := by
  have ends := ends_resolve_bound consistent h occurs bound
  cases found : r.resolved.get? t.name with
  | some d =>
    rw [ends_resolve_known found] at ends ⊢
    exact ends
  | none =>
    obtain ⟨base, levels, named, listed, atomic, -, under, -⟩ :=
      exists_base (K := K) consistent occurs
    have split : TypeName.splitArrays t.name = (base.name, levels) := by
      rw [named]
      exact TypeName.splitArrays_arrays atomic levels
    rw [ends_resolve_new found split fun _ => h.plain base.name] at ends ⊢
    cases known : r.base? base.name with
    | some d =>
      rw [known] at ends
      exact ends
    | none =>
      obtain ⟨unknown, spelled⟩ := Option.or_eq_none_iff.mp known
      obtain ⟨-, undeclared⟩ := Option.or_eq_none_iff.mp unknown
      cases under bound with
      | primitive p => simp [MessageType.name, TypeName.ofSpelling?_name] at spelled
      | sequence => exact absurd rfl (atomic.ne_array _)
      | record id args =>
        obtain ⟨d, known⟩ := declared id args levels listed named
        cases undeclared.symm.trans known

/-- The name of any type of the set, with parameters or without, resolves to a description of a type
of that name. -/
theorem ends_resolve_named (consistent : C.Consistent types)
    (spans : ∀ storage t, C.Occurs types t → C.Occurs types (.sequence storage t))
    (h : Faithful K C types r) (occurs : C.Occurs types t) :
    (Registry.resolve t.name).Ends r
      (fun d r' => Faithful K C types r' ∧ r'.declared = r.declared ∧
        Describes K C types t.name d)
      fun _ r' => Faithful K C types r' ∧ r'.declared = r.declared := by
  cases found : r.resolved.get? t.name with
  | some d =>
    rw [ends_resolve_known found]
    exact ⟨h, rfl, h.resolved _ d found⟩
  | none =>
    obtain ⟨base, levels, named, listed, atomic, spelled, -⟩ :=
      exists_base (K := K) consistent occurs
    have split : TypeName.splitArrays t.name = (base.name, levels) := by
      rw [named]
      exact TypeName.splitArrays_arrays atomic levels
    rw [ends_resolve_new found split fun _ => h.plain base.name]
    cases known : r.base? base.name with
    | some d =>
      have describes := (h.base? listed spelled known).arrays spans levels
      rw [← named] at describes
      exact ⟨h.note describes, rfl, describes⟩
    | none => exact ⟨h, rfl⟩

/-! ## Nodes -/

theorem ends_resolveNode_member {member typeName : String} {Q : Descriptor → Registry → Prop}
    {R : Error → Registry → Prop} (h : (Registry.resolve typeName).Ends r Q R) :
    (resolveNode (.member member typeName)).Ends r Q R := by
  rw [Node.member, resolveNode.eq_def, ends_recover]
  refine h.mono (fun _ _ hd => hd) fun e _ he => ?_
  cases e <;> exact he

theorem ends_resolveChildren_listed (consistent : C.Consistent types) (h : Faithful K C types r)
    (occurs : C.Occurs types (.record id args)) (bound : ∀ m ∈ C.members id args, Bound m.2)
    (owner : String) {children : List Node}
    (only : ∀ c ∈ children, ∃ m ∈ C.members id args, c = .member m.1 m.2.name) :
    (resolveChildren owner children).Ends r
      (fun members r' => Faithful K C types r' ∧ r'.declared = r.declared ∧
        List.Forall₂ (fun c p => ∃ t, (p.1, t) ∈ C.members id args ∧ c = .member p.1 t.name ∧
          Depicts K C types p.2 t) children members)
      fun _ r' => Faithful K C types r' ∧ r'.declared = r.declared := by
  induction children generalizing r with
  | nil =>
    rw [resolveChildren]
    exact ⟨h, rfl, .nil⟩
  | cons child others ih =>
    obtain ⟨⟨name, t⟩, mem, rfl⟩ := only child List.mem_cons_self
    rw [resolveChildren, show (Node.member name t.name).name = some name from rfl]
    dsimp only
    rw [ends_bind]
    have resolved := ends_resolve_bound consistent h (occurs.member mem) (bound _ mem)
    refine (ends_resolveNode_member resolved).mono ?_ ?_
    · rintro d r₁ ⟨h₁, same₁, depicts⟩
      rw [ends_bind]
      refine (ih h₁ fun c hc => only c (List.mem_cons_of_mem _ hc)).mono ?_ ?_
      · rintro members r₂ ⟨h₂, same₂, all⟩
        exact ⟨h₂, same₂.trans same₁, .cons ⟨t, mem, rfl, depicts⟩ all⟩
      · rintro e r₂ ⟨h₂, same₂⟩
        exact ⟨h₂, same₂.trans same₁⟩
    · rintro e _ ⟨-, rfl, -⟩
      exact ⟨h, rfl⟩

theorem depicts_built {node : Node} (lists : C.Lists types id args node) {short : String}
    {members : List (String × Descriptor)}
    (all : List.Forall₂ (fun c p => ∃ t, (p.1, t) ∈ C.members id args ∧ c = .member p.1 t.name ∧
      Depicts K C types p.2 t) node.children members) :
    Depicts K C types (.built node.typeName short .synthesized members) (.record id args) := by
  refine .built lists.named lists.unique ?_ ?_ ?_
  · intro m mem
    obtain ⟨p, hp, t, -, same, -⟩ := partner_right all (lists.child m mem)
    exact ⟨p, hp, (Option.some.inj (congrArg Node.name same)).symm⟩
  · intro p hp
    obtain ⟨c, -, t, mem, -⟩ := partner_left all hp
    exact ⟨t, mem⟩
  · intro p hp t mem
    obtain ⟨c, -, t', mem', -, depicts⟩ := partner_left all hp
    have found := lookup_of_mem lists.unique mem
    rw [lookup_of_mem lists.unique mem'] at found
    obtain rfl := Option.some.inj found
    exact depicts

theorem ends_addSynthesized_listed (consistent : C.Consistent types) (h : Faithful K C types r)
    {node : Node} (lists : C.Lists types id args node) {members : List (String × Descriptor)}
    (all : List.Forall₂ (fun c p => ∃ t, (p.1, t) ∈ C.members id args ∧ c = .member p.1 t.name ∧
      Depicts K C types p.2 t) node.children members) :
    (addSynthesized node.typeName members).Ends r
      (fun d r' => Faithful K C types r' ∧ r'.declared = r.declared ∧
        Depicts K C types d (.record id args))
      fun _ _ => False := by
  cases found : r.resolved.get? node.typeName with
  | some d =>
    unfold addSynthesized
    rw [ends_bind, ends_get, found]
    have describes := h.resolved _ d found
    rw [lists.named] at describes
    exact ⟨h, rfl, describes.depicts consistent lists.occurs (.record id args)⟩
  | none =>
    rw [ends_addSynthesized found]
    have depicts : Depicts K C types (.built node.typeName (TypeName.short node.typeName)
        .synthesized members) (.record id args) := depicts_built lists all
    have noted := h.note ⟨_, lists.occurs, .record id args, lists.named.symm, depicts⟩
    exact ⟨⟨noted.generics, noted.declared, noted.resolved⟩, rfl, depicts⟩

theorem ends_resolveNode_listed (consistent : C.Consistent types) (h : Faithful K C types r)
    {node : Node} (lists : C.Lists types id args node) :
    (resolveNode node).Ends r
      (fun d r' => Faithful K C types r' ∧ r'.declared = r.declared ∧
        Depicts K C types d (.record id args))
      fun _ r' => Faithful K C types r' ∧ r'.declared = r.declared ∧
        ¬ r.Declares node.typeName := by
  have resolved := ends_resolve_bound consistent h lists.occurs (.record id args)
  rw [← lists.named] at resolved
  have made := fun owner => ends_resolveChildren_listed (K := K) consistent h lists.occurs
    lists.bound owner lists.only
  obtain ⟨name, typeName, children⟩ := node
  rw [resolveNode.eq_def, ends_recover]
  refine resolved.mono (fun _ _ hd => hd) ?_
  rintro e _ ⟨rfl, rfl, undeclared⟩
  have unknown := undeclared id args rfl
  cases children with
  | nil => exact ⟨h, rfl, unknown⟩
  | cons child others =>
    refine ends_bind.mpr ((made typeName).mono ?_ ?_)
    · rintro members r₁ ⟨h₁, same, all⟩
      refine (ends_addSynthesized_listed consistent h₁ lists all).mono ?_ fun _ _ no => no.elim
      rintro d r₂ ⟨h₂, same', depicts⟩
      exact ⟨h₂, same'.trans same, depicts⟩
    · rintro e r₁ ⟨h₁, same⟩
      exact ⟨h₁, same, unknown⟩

end Registry

end SchemaCodec
