import SchemaCodec.Proofs.Engine.StaticTypes
import SchemaCodec.Proofs.Program.Conformance
import SchemaCodec.Proofs.Registry.Guarded

/-! # Engines that guard a type

An engine that knows the records of a type from the start may then be given schemas of any kind.
Whatever is compiled under the name of one of the records conforms to the record, because it was
chosen for members that the program declares.
-/

namespace SchemaCodec

open SchemaCodec.Action MessageType Catalog

namespace Engine

/-- The engine has the catalogue and the schema of the type, its registry upholds the declarations,
and whatever is compiled under the name of a record conforms to the record. -/
structure Guarded (C : Catalog) (t : MessageType) (schema : Schema)
    (declared : Cache String Descriptor) (e : Engine) : Prop where
  catalog_eq : e.catalog = C
  schemas : e.schemas.get? t = some schema
  registry : e.registry.Guarded C {t} declared
  vetted : C.Vetted {t} e.plan?

/-- The description may be that of the root of a schema: where the name of the root is declared, it
is a record of this name. -/
structure Rooted (C : Catalog) (t : MessageType) (declared : Cache String Descriptor)
    (typeName : String) (d : Descriptor) : Prop where
  confined : C.Confined {t} d
  own : ∀ d', declared.get? typeName = some d' → d.isRecord = true ∧ d.name = typeName

variable {C : Catalog} {t : MessageType} {schema : Schema} {declared : Cache String Descriptor}
  {e : Engine} {d : Descriptor} {typeName : String}

/-! ## The state -/

theorem Guarded.note (h : Guarded C t schema declared e) {c : Codec}
    (conforms : C.ConformsAs {t} c.typeName c.plan) : Guarded C t schema declared (e.note c) where
  catalog_eq := h.catalog_eq
  schemas := h.schemas
  registry := h.registry
  vetted := by
    intro name plan found
    obtain ⟨c', hc', rfl⟩ := plan?_eq_some.mp found
    rcases Cache.get?_add_eq_some hc' with old | ⟨-, rfl, rfl⟩
    · exact h.vetted name _ (plan?_eq_some.mpr ⟨c', old, rfl⟩)
    · exact conforms

theorem Guarded.conformsAs (h : Guarded C t schema declared e) {c : Codec}
    (found : e.compiled.get? typeName = some c) : C.ConformsAs {t} typeName c.plan :=
  h.vetted typeName _ (plan?_eq_some.mpr ⟨c, found, rfl⟩)

theorem guarded_resolving {α : Type} {step : Action Registry α} {R : Error → Prop} {P : α → Prop}
    (h : step.Keeps (Registry.Guarded C {t} declared) R P) :
    (resolving step).Keeps (Guarded C t schema declared) R P :=
  h.within (fun _ he => he.registry) fun _ _ hr he => ⟨he.catalog_eq, he.schemas, hr, he.vetted⟩

theorem guarded_count (f : Counters → Counters) (R : Error → Prop) :
    (count f).Keeps (Guarded C t schema declared) R fun _ => True :=
  keeps_modify fun _ he => ⟨he.catalog_eq, he.schemas, he.registry, he.vetted⟩

theorem guarded_keep {c : Codec} (conforms : C.ConformsAs {t} c.typeName c.plan) :
    (keep c).Keeps (Guarded C t schema declared) (fun _ => True)
      fun c' => C.ConformsAs {t} c.typeName c'.plan := by
  intro e h
  refine ⟨h.note conforms, ?_⟩
  exact Cache.getOr_eq (fun c' => C.ConformsAs {t} c.typeName c'.plan)
    (fun c' found => h.conformsAs found) conforms

section Enlisted

variable (enlists : C.Enlists {t} declared)

include enlists

/-! ## Roots -/

theorem rooted_of_upholds (upholds : C.Upholds {t} declared typeName d) :
    Rooted C t declared typeName d := by
  refine ⟨upholds.confined, fun d' listed => ?_⟩
  obtain rfl := upholds.same d' listed
  have own := enlists.sound _ _ listed
  exact ⟨own.isRecord, own.name_eq⟩

theorem rooted_of_extracted {ext : Extraction} (confined : C.Confined {t} d)
    (extracted : Extraction.ofDescriptor C d = .ok ext) : Rooted C t declared d.name d := by
  refine ⟨confined, fun d' listed => ⟨?_, rfl⟩⟩
  obtain ⟨id, args, -, occurs, named⟩ := enlists.sound _ _ listed
  cases confined with
  | primitive p => exact absurd named (enlists.consistent.name_ne occurs p)
  | parameter i =>
    obtain ⟨-, covered⟩ := Discovery.closed_records (hereditary_confined C {t}) (.parameter i)
      (Extraction.ofDescriptor_eq_ok extracted).1
    rcases covered with ⟨p, -, no⟩ | ⟨no, -⟩ <;> cases no
  | sequence => exact absurd named ((enlists.consistent.atomic occurs).ne_array _)
  | declared => rfl
  | built => rfl

theorem conformsAs_of_new (new : declared.get? typeName = none) (plan : Plan) :
    C.ConformsAs {t} typeName plan := by
  rintro id args occurs rfl
  obtain ⟨d, listed⟩ := enlists.complete id args occurs
  cases new.symm.trans listed

/-! ## Compilation -/

theorem Guarded.conforms_ofNode (h : Guarded C t schema declared e) {node : Node} {plan : Plan}
    (upholds : C.Upholds {t} declared node.typeName d)
    (chosen : Plan.ofNode e.plan? C node d = .ok plan) :
    C.ConformsAs {t} node.typeName plan := by
  intro id args occurs named
  exact h.vetted.conforms_ofNode enlists.consistent (enlists.unique id args occurs) occurs
    (enlists.depicts occurs (named ▸ upholds)) chosen

theorem guarded_extract (confined : C.Confined {t} d) :
    (extract d).Keeps (Guarded C t schema declared) (fun _ => True) fun full =>
      full.typeName = d.name ∧ Rooted C t declared d.name d := by
  apply keeps_extract
  · intro e he ext extracted
    rw [he.catalog_eq] at extracted ⊢
    obtain ⟨found, named, -⟩ := Extraction.ofDescriptor_eq_ok extracted
    obtain ⟨all, -⟩ := Discovery.closed_records (hereditary_confined C {t}) confined found
    refine ⟨⟨named, rooted_of_extracted enlists confined extracted⟩, guarded_resolving ?_⟩
    exact Registry.guarded_declareAll enlists (fun d hd => (all d hd).2.1) fun d hd => (all d hd).1
  · exact fun _ _ _ _ => trivial

theorem guarded_compileNodes (nodes : List Node) :
    (compileNodes nodes).Keeps (Guarded C t schema declared) (fun _ => True) fun _ => True := by
  induction nodes with
  | nil => exact keeps_pure trivial
  | cons node nodes ih =>
    have resolved : (resolveNode node).Keeps (Guarded C t schema declared) (fun _ => True)
        (C.Upholds {t} declared node.typeName) :=
      guarded_resolving ((Registry.guarded_resolveNode enlists node).mono
        (fun _ upholds => upholds) fun _ _ => trivial)
    rw [compileNodes]
    apply keeps_get.bind fun e _ => ?_
    split
    · exact ih
    · apply resolved.bind fun d upholds => keeps_get.bind fun e he => ?_
      apply Keeps.bind (P := C.ConformsAs {t} node.typeName)
      · rw [he.catalog_eq]
        exact keeps_ofExcept (fun plan => he.conforms_ofNode enlists upholds) fun _ _ => trivial
      · intro plan conforms
        apply (keeps_report _).bind fun _ _ => Keeps.bind (guarded_keep conforms) fun _ _ => ih

theorem guarded_compileRoot (rooted : Rooted C t declared typeName d) (leaf : ¬ d.isRecord = true) :
    (compileRoot typeName d).Keeps (Guarded C t schema declared) (fun _ => True)
      fun c => C.ConformsAs {t} typeName c.plan := by
  have new : declared.get? typeName = none :=
    Option.eq_none_iff_forall_ne_some.mpr fun d' listed => leaf (rooted.own d' listed).1
  apply keeps_get.bind fun e _ => Keeps.bind (P := fun _ => True) ?_ fun plan _ => ?_
  · exact keeps_ofExcept (fun _ _ => trivial) fun _ _ => trivial
  · exact (keeps_report _).bind fun _ _ => guarded_keep (conformsAs_of_new enlists new plan)

theorem guarded_rootType (S : Schema) {root : Option Descriptor}
    (rooted : ∀ d, root = some d → Rooted C t declared S.typeName d) :
    (rootType S root).Keeps (Guarded C t schema declared) (fun _ => True)
      (Rooted C t declared S.typeName) := by
  cases root with
  | some d => exact keeps_pure (rooted d rfl)
  | none =>
    exact guarded_resolving ((Registry.guarded_resolve enlists S.typeName).mono
      (fun _ upholds => rooted_of_upholds enlists upholds) fun _ _ => trivial)

theorem guarded_compileRound {again : Schema → Descriptor → Action Engine Codec}
    (h : ∀ full d, Rooted C t declared full.typeName d →
      (again full d).Keeps (Guarded C t schema declared) (fun _ => True)
        fun c => C.ConformsAs {t} full.typeName c.plan)
    (S : Schema) {root : Option Descriptor}
    (rooted : ∀ d, root = some d → Rooted C t declared S.typeName d) :
    (compileRound again S root).Keeps (Guarded C t schema declared) (fun _ => True)
      fun c => C.ConformsAs {t} S.typeName c.plan := by
  apply (guarded_compileNodes enlists S.types).bind fun _ _ => keeps_get.bind fun e he => ?_
  split
  · next c found => exact keeps_pure (he.conformsAs found)
  · apply (guarded_rootType enlists S rooted).bind fun d rooted => ?_
    split
    · apply (guarded_extract enlists rooted.confined).bind
      rintro full ⟨named, whole⟩
      split
      · exact keeps_fail trivial
      · apply (h full d (named.symm ▸ whole)).mono (fun c conforms => ?_) fun _ _ => trivial
        -- The next round is under the record's own name, which is that of the root if declared.
        rintro id args occurs same
        obtain ⟨d', listed⟩ := enlists.complete id args occurs
        have own := (rooted.own d' (same ▸ listed)).2
        exact conforms id args occurs (same.trans (own.symm.trans named.symm))
    · next leaf => exact guarded_compileRoot enlists rooted leaf

theorem guarded_compile (S : Schema) {root : Option Descriptor}
    (rooted : ∀ d, root = some d → Rooted C t declared S.typeName d) :
    (compile S root).Keeps (Guarded C t schema declared) (fun _ => True)
      fun c => C.ConformsAs {t} S.typeName c.plan := by
  apply guarded_compileRound enlists (fun full d whole => ?_) S rooted
  apply guarded_compileRound enlists (fun _ _ _ => keeps_fail trivial) full
  rintro _ ⟨⟩
  exact whole

/-- Whatever a schema is compiled to conforms under the name of its root. -/
theorem guarded_codecOfSchema (S : Schema) :
    (codecOfSchema S).Keeps (Guarded C t schema declared) (fun _ => True)
      fun c => C.ConformsAs {t} S.typeName c.plan := by
  apply keeps_get.bind fun e he => ?_
  split
  · next c found => exact (guarded_count _ _).bind fun _ _ => keeps_pure (he.conformsAs found)
  · exact (guarded_count _ _).bind fun _ _ => guarded_compile enlists S fun _ no => by cases no

theorem guarded_codecOfName (typeName : String) :
    (codecOfName typeName).Keeps (Guarded C t schema declared) (fun _ => True) fun _ => True := by
  apply keeps_get.bind fun e _ => ?_
  split
  · exact keeps_pure trivial
  · have resolved : (resolve typeName).Keeps (Guarded C t schema declared) (fun _ => True)
        (C.Confined {t}) :=
      guarded_resolving ((Registry.guarded_resolve enlists typeName).mono
        (fun _ upholds => upholds.confined) fun _ _ => trivial)
    apply resolved.bind fun d confined => (guarded_extract enlists confined).bind ?_
    rintro full ⟨named, rooted⟩
    apply (guarded_compile enlists full _).weaken
    rintro _ ⟨⟩
    exact named ▸ rooted

theorem guarded_resolveSchema (S : Schema) :
    (resolveSchema S).Keeps (Guarded C t schema declared) (fun _ => True) fun _ => True := by
  apply Keeps.bind (Keeps.traverse (Q := fun _ _ => True) fun node _ => ?_) fun _ _ => ?_
  · exact guarded_resolving (Registry.guarded_resolveNode enlists node).weaken
  · exact guarded_resolving (Registry.guarded_resolve enlists S.typeName).weaken

end Enlisted

end Engine

end SchemaCodec
