import SchemaCodec.Proofs.Engine.Serving

/-! # Codings of the types of a program

An engine of a program that is only given types of a consistent set, as they are or in schemas that
were extracted from them, has a coding for every type whose extraction succeeds, whatever it was
given before.
-/

namespace SchemaCodec

open SchemaCodec.Action MessageType Catalog Discovery

variable {C : Catalog} {limits : Limits} {types : Set MessageType} {held : String → Codec → Prop}
  {t : MessageType} {ext : Extraction} {id : RecordId} {args : List MessageType}

/-! ## Extraction -/

namespace Catalog

/-- Whether extraction accepts the type. -/
def Accepts (C : Catalog) (t : MessageType) : Prop :=
  ∃ ext, Extraction.ofDescriptor C t.describe = .ok ext

theorem Accepts.ne_error (h : C.Accepts t) {err : Error} :
    Extraction.ofDescriptor C t.describe ≠ .error err := by
  obtain ⟨ext, accepted⟩ := h
  rw [accepted]
  exact fun no => nomatch no

theorem exists_innermost (occurs : C.Occurs types t) :
    ∃ t', t.describe.innermost = t'.describe ∧ C.Occurs types t' := by
  induction t with
  | primitive p => exact ⟨_, rfl, occurs⟩
  | parameter i => exact ⟨_, rfl, occurs⟩
  | sequence storage element ih => exact ih occurs.element
  | record id args => exact ⟨_, rfl, occurs⟩

theorem hereditary_occurs (C : Catalog) (types : Set MessageType) :
    Hereditary C fun d => ∃ t, d = t.describe ∧ C.Occurs types t where
  innermost := by
    rintro _ ⟨t, rfl, occurs⟩
    exact exists_innermost occurs
  member := by
    rintro _ ⟨t, rfl, occurs⟩ m mem
    cases t with
    | record id args =>
      obtain ⟨⟨name, t⟩, member, rfl⟩ := List.mem_map.mp mem
      exact ⟨t, rfl, occurs.member member⟩
    | _ => cases mem

theorem closed_of_accepted (occurs : C.Occurs types t)
    (h : Extraction.ofDescriptor C t.describe = .ok ext) :
    (∀ r ∈ ext.records, (∃ id args, r = .declared id args ∧ C.Occurs types (.record id args)) ∧
      Closed C ext.records r) ∧ Covered ext.records t.describe := by
  have found := (Extraction.ofDescriptor_eq_ok h).1
  obtain ⟨closed, covered⟩ := closed_records (hereditary_occurs C types) ⟨t, rfl, occurs⟩ found
  refine ⟨fun r mem => ?_, covered⟩
  obtain ⟨isRecord, ⟨t', rfl, occurs'⟩, hr⟩ := closed r mem
  cases t' with
  | record id args => exact ⟨⟨id, args, rfl, occurs'⟩, hr⟩
  | _ => cases isRecord

end Catalog

namespace Engine

variable {e : Engine}

/-- The engines of the invariant extract the schema of the type and declare its records. Then they
compile it to a coding that fits the type, and all codings that they hold under its name do. -/
structure Supports (C : Catalog) (t : MessageType) (I : Engine → Prop) : Prop where
  counters : ∀ e counters, I e → I { e with counters := counters }
  schemas : ∀ e S, I e → e.schemas.get? t = some S → Extracted C e.registry t S
  add_schema : ∀ e S, I e → Extracted C e.registry t S → I { e with schemas := e.schemas.add t S }
  extract : ∀ e, I e → (extract t.describe).Ends e
    (fun S e' => I e' ∧ Extracted C e'.registry t S)
    fun err e' => I e' ∧ Extraction.ofDescriptor C t.describe = .error err
  fits : ∀ e c, I e → C.Accepts t → e.compiled.get? t.name = some c → C.Fits c.plan t
  compile : ∀ e ext, I e → Extraction.ofDescriptor C t.describe = .ok ext →
    (∀ r ∈ ext.records, e.registry.Declares r.name) →
    (compile ext.schema (some t.describe)).Ends e
      (fun c e' => I e' ∧ e'.compiled.get? t.name = some c ∧ C.Fits c.plan t) fun _ _ => False

variable {I : Engine → Prop}

theorem Supports.ends_schemaOf (supports : Supports C t I) (h : I e) :
    (schemaOf t).Ends e
      (fun S e' => I e' ∧ Extracted C e'.registry t S)
      fun err e' => I e' ∧ Extraction.ofDescriptor C t.describe = .error err := by
  unfold schemaOf
  rw [ends_bind, ends_get]
  split
  · next S found =>
    rw [ends_bind, ends_count]
    exact ⟨supports.counters e _ h, supports.schemas e S h found⟩
  · rw [ends_bind, ends_count, ends_bind, ends_report, ends_bind]
    refine (supports.extract _ (supports.counters e _ h)).mono ?_ fun _ _ failed => failed
    rintro S e' ⟨h', extracted⟩
    rw [ends_bind, ends_modify]
    exact ⟨supports.add_schema e' S h' extracted, extracted⟩

theorem Supports.ends_codecOf (supports : Supports C t I) (h : I e) :
    (codecOf t).Ends e
      (fun c e' => I e' ∧ e'.compiled.get? t.name = some c ∧ C.Fits c.plan t ∧ C.Accepts t)
      fun err e' => I e' ∧ Extraction.ofDescriptor C t.describe = .error err := by
  unfold codecOf
  rw [ends_bind]
  refine (supports.ends_schemaOf h).mono ?_ fun _ _ failed => failed
  rintro _ e' ⟨h', ext, accepted, rfl, declared⟩
  have named : ext.schema.typeName = t.name :=
    (Extraction.ofDescriptor_eq_ok accepted).2.1.trans (name_describe t)
  rw [ends_bind, ends_get, named]
  split
  · next c found =>
    rw [ends_bind, ends_count]
    exact ⟨supports.counters e' _ h', found, supports.fits e' c h' ⟨ext, accepted⟩ found, ext,
      accepted⟩
  · rw [ends_bind, ends_count, ends_bind, ends_report]
    have counted := supports.counters e'
      { e'.counters with compileMisses := e'.counters.compileMisses + 1 } h'
    refine (supports.compile _ ext counted accepted declared).mono ?_ fun _ _ no => no.elim
    rintro c e'' ⟨h'', held, fits⟩
    exact ⟨h'', held, fits, ext, accepted⟩

/-! ## Compilation -/

/-- The members of a record are ready when everything that the record needs has a plan. -/
theorem ready_members {records : List Descriptor} {r : Descriptor}
    (consistent : C.Consistent types) (occurs : C.Occurs types (.record id args))
    (depicts : Depicts C C types r (.record id args)) (closed : Closed C records r)
    (needs : ∀ need ∈ Extraction.needs C r, ∃ plan, e.plan? need = some plan) :
    ∀ m ∈ C.members id args, Ready e.plan? m.2 := by
  intro m mem
  obtain ⟨members, known, every, -⟩ := depicts.members consistent occurs
  obtain ⟨p, hp, -, depicts'⟩ := every m mem
  have described : p ∈ r.members C := by
    rw [Descriptor.members, known]
    exact hp
  apply depicts'.ready
  rcases closed.covered _ described with leaf | ⟨isRecord, -⟩
  · exact .inl leaf
  · exact .inr ⟨isRecord, needs _ (Extraction.mem_needs described isRecord)⟩

/-- The engines have the catalogue, they resolve the nodes of the records, and each of them may go on
to have a coding that was compiled from such a node. -/
def Steady (C : Catalog) (types : Set MessageType) (records : List Descriptor)
    (I : Engine → Prop) : Prop :=
  ∀ e, I e → e.catalog = C ∧ ∀ r ∈ records, ∀ id args node, Depicts C C types r (.record id args) →
    C.Lists types id args node → (Registry.resolveNode node).Ends e.registry
      (fun d r => Depicts C C types d (.record id args) ∧ ∀ plan,
        Plan.ofNode e.plan? C node d = .ok plan →
          I (note { e with registry := r } ⟨node.typeName, plan, e.limits⟩))
      fun _ _ => False

theorem ends_compile_entries (consistent : C.Consistent types) {records : List Descriptor}
    (steady : Steady C types records I)
    (closed : ∀ r ∈ records, (∃ id args, C.Occurs types (.record id args) ∧
      Depicts C C types r (.record id args)) ∧ Closed C records r)
    {listed rest : List Ordering.Entry} (order : Ordering.InOrder listed rest)
    (entries : ∀ en ∈ rest, ∃ r ∈ records, en = Extraction.entry C r) (h : I e)
    (done : ∀ en ∈ listed, ∃ plan, e.plan? en.name = some plan) :
    (compileNodes (rest.map (·.node))).Ends e
      (fun _ e' => I e' ∧ ∀ en ∈ listed ++ rest, ∃ plan, e'.plan? en.name = some plan)
      fun _ _ => False := by
  refine ends_compileNodes_inOrder order (fun en hen e he needs => ?_) h done
  obtain ⟨r, hr, rfl⟩ := entries en hen
  obtain ⟨⟨id, args, occurs, depicts⟩, closed_r⟩ := closed r hr
  have lists := lists_entry consistent occurs depicts closed_r
  obtain ⟨catalog_eq, resolved⟩ := steady e he
  refine (resolved r hr id args _ depicts lists).mono ?_ fun _ _ no => no
  rintro d registry ⟨depicts', kept⟩
  obtain ⟨plan, chosen⟩ := exists_ofNode consistent lists depicts'
    (ready_members consistent occurs depicts closed_r needs)
  exact ⟨plan, catalog_eq ▸ chosen, kept plan chosen⟩

variable {d : Descriptor}

theorem ends_compile_types (consistent : C.Consistent types) (occurs : C.Occurs types t)
    (depicts : Depicts C C types d t) (accepted : Extraction.ofDescriptor C d = .ok ext)
    (steady : Steady C types ext.records I) (h : I e) :
    (compileNodes ext.schema.types).Ends e
      (fun _ e' => I e' ∧ Ready e'.plan? t) fun _ _ => False := by
  obtain ⟨closed, covered⟩ := closed_of_extracted consistent occurs depicts accepted
  obtain ⟨-, -, entries, types_eq, order, perm⟩ := Extraction.ofDescriptor_eq_ok accepted
  have from_records : ∀ en ∈ entries, ∃ r ∈ ext.records, en = Extraction.entry C r := by
    intro en hen
    obtain ⟨r, hr, rfl⟩ := List.mem_map.mp (perm.mem_iff.mp hen)
    exact ⟨r, hr, rfl⟩
  rw [types_eq]
  refine (ends_compile_entries consistent steady closed order from_records h
    fun _ no => nomatch no).mono ?_ fun _ _ no => no
  rintro _ e' ⟨h', done⟩
  refine ⟨h', depicts.ready ?_⟩
  rcases covered with leaf | ⟨isRecord, r, hr, same⟩
  · exact .inl leaf
  · have listed : Extraction.entry C r ∈ entries :=
      perm.mem_iff.mpr (List.mem_map.mpr ⟨r, hr, rfl⟩)
    exact .inr ⟨isRecord, same ▸ done _ listed⟩

/-- An extracted type compiles to a coding that fits it, which is then held under its name, where the
engines of the invariant hold fitting codings and may go on to have one of the type. -/
theorem ends_compile_steady (consistent : C.Consistent types) (occurs : C.Occurs types t)
    (depicts : Depicts C C types d t) (accepted : Extraction.ofDescriptor C d = .ok ext)
    (steady : Steady C types ext.records I) (linked : ∀ e, I e → C.Linked types e.plan?)
    (kept : ∀ e plan, I e → C.Fits plan t → I (e.note ⟨t.name, plan, e.limits⟩)) (h : I e) :
    (compile ext.schema (some d)).Ends e
      (fun c e' => I e' ∧ e'.compiled.get? t.name = some c ∧ C.Fits c.plan t)
      fun _ _ => False := by
  have outlines := outlines_extracted consistent occurs depicts accepted
  show (compileWithin (0 + 1) ext.schema (some d)).Ends e _ _
  rw [compileWithin, compileRound, ends_bind]
  refine (ends_compile_types consistent occurs depicts accepted steady h).mono ?_ fun _ _ no => no
  rintro _ e' ⟨h', ready⟩
  obtain ⟨plan, chosen⟩ := exists_chosen consistent depicts occurs ready
  rw [ends_bind, ends_get, outlines.named]
  cases found : e'.compiled.get? t.name with
  | some c =>
    have fits := (linked e' h').fits consistent occurs outlines.bound
      (plan?_eq_some.mpr ⟨c, found, rfl⟩)
    exact ⟨h', found, fits⟩
  | none =>
    dsimp only
    have fits := (linked e' h').fits_chosen consistent chosen depicts occurs
    rw [ends_bind, rootType, ends_pure, if_neg, ends_compileRoot_new found chosen]
    · exact ⟨kept e' plan h' fits, get?_note (c := ⟨t.name, plan, e'.limits⟩) found, fits⟩
    · intro isRecord
      obtain ⟨c, known, -⟩ := plan?_eq_some.mp (chosen.of_isRecord isRecord)
      cases found.symm.trans known

theorem steady_serves (consistent : C.Consistent types) (records : List Descriptor) :
    Steady C types records fun e =>
      Serves C C limits types held e ∧ ∀ r ∈ records, e.registry.Declares r.name := by
  rintro e ⟨h, declared⟩
  refine ⟨h.catalog_eq, fun r hr id args node depicts_r lists => ?_⟩
  apply (Registry.ends_resolveNode_listed consistent h.registry lists).mono
  · rintro d registry ⟨faithful, known, depicts⟩
    have more : ∀ name, e.registry.Declares name → registry.Declares name := fun name known' => by
      rwa [Registry.Declares, known]
    refine ⟨depicts, fun plan chosen => ⟨?_, fun r' hr' => more _ (declared r' hr')⟩⟩
    have fits := h.linked.fits_ofNode consistent lists depicts chosen
    exact (h.registry_eq faithful more).add_codec lists.occurs lists.named.symm fits h.limits_eq
  · rintro err registry ⟨-, -, undeclared⟩
    rw [lists.named, ← depicts_r.name_eq] at undeclared
    exact undeclared (declared _ hr)

theorem ends_compile (consistent : C.Consistent types) (occurs : C.Occurs types t)
    (accepted : Extraction.ofDescriptor C t.describe = .ok ext)
    (h : Serves C C limits types held e)
    (declared : ∀ r ∈ ext.records, e.registry.Declares r.name) :
    (compile ext.schema (some t.describe)).Ends e
      (fun c e' => Serves C C limits types held e' ∧ e'.compiled.get? t.name = some c ∧
        C.Fits c.plan t)
      fun _ _ => False := by
  refine (ends_compile_steady consistent occurs (depicts_describe occurs) accepted
    (steady_serves consistent _) (fun _ he => he.1.linked) ?_ ⟨h, declared⟩).mono
      (fun _ _ done => ⟨done.1.1, done.2⟩) fun _ _ no => no
  exact fun e plan he fits =>
    ⟨he.1.add_codec (c := ⟨t.name, plan, e.limits⟩) occurs rfl fits he.1.limits_eq, he.2⟩

theorem supports_serves (consistent : C.Consistent types) (occurs : C.Occurs types t) :
    Supports C t (Serves C C limits types held) where
  counters := fun _ counters h => h.counters_eq counters
  schemas := fun _ S h found => h.schemas t S found
  add_schema := fun _ _ h extracted => h.add_schema extracted
  extract := by
    intro e h
    refine (ends_extract consistent occurs (depicts_describe occurs) h).mono ?_
      fun _ _ failed => failed
    rintro _ e' ⟨h', ext, accepted, rfl, declared⟩
    refine ⟨h', ext, accepted, rfl, fun r mem => declared r mem ?_⟩
    obtain ⟨⟨id, args, rfl, listed⟩, -⟩ := (closed_of_accepted occurs accepted).1 r mem
    exact consistent.declared id args listed
  fits := by
    rintro e c h ⟨ext, accepted⟩ found
    have outlines := outlines_extracted consistent occurs (depicts_describe occurs) accepted
    exact h.fits consistent occurs outlines.bound found
  compile := fun _ _ h accepted declared => ends_compile consistent occurs accepted h declared

theorem ends_schemaOf (consistent : C.Consistent types) (occurs : C.Occurs types t)
    (h : Serves C C limits types held e) :
    (schemaOf t).Ends e
      (fun schema e' => Serves C C limits types held e' ∧ Extracted C e'.registry t schema)
      fun err e' => Serves C C limits types held e' ∧
        Extraction.ofDescriptor C t.describe = .error err :=
  (supports_serves consistent occurs).ends_schemaOf h

theorem ends_codecOf (consistent : C.Consistent types) (occurs : C.Occurs types t)
    (h : Serves C C limits types held e) :
    (codecOf t).Ends e
      (fun c e' => Serves C C limits types held e' ∧ e'.compiled.get? t.name = some c ∧
        C.Fits c.plan t ∧ C.Accepts t)
      fun err e' => Serves C C limits types held e' ∧
        Extraction.ofDescriptor C t.describe = .error err :=
  (supports_serves consistent occurs).ends_codecOf h

end Engine

end SchemaCodec
