import SchemaCodec.Proofs.Engine.HistoryIndependence
import SchemaCodec.Proofs.Registry.Instantiation

/-! # Generic records by name

An engine that is given the types of a legible set and the definitions of their generic records can
make an instance of such a record from its name alone. What it makes has the members of the
instance, and it reads what any engine of the program writes for the instance.
-/

namespace SchemaCodec.Engine

open SchemaCodec.Action MessageType Catalog Discovery

variable {C : Catalog} {limits limits' : Limits} {types : Set MessageType} {t : MessageType}
  {id : RecordId} {args : List MessageType} {count : Nat} {d : Descriptor} {ext : Extraction}
  {name : String} {x : Instance} {bytes : List UInt8} {e : Engine} {ops ops' : List Operation}

/-! ## The state -/

/-- The engine knows generic records of the program only as they were captured, and types of the set
only as what they are; all of its codings fit types of the set. -/
structure Hosts (C : Catalog) (types : Set MessageType) (e : Engine) : Prop where
  catalog_eq : e.catalog = C
  registry : e.registry.Versed C types
  schemas : ∀ t S, e.schemas.get? t = some S → Extracted C e.registry t S
  linked : C.Linked (C.involved types) e.plan?

theorem hosts_fresh (C : Catalog) (limits : Limits) (types : Set MessageType) :
    Hosts C types (fresh C limits) where
  catalog_eq := rfl
  registry := Registry.versed_empty C types
  schemas := fun _ _ no => nomatch no
  linked := fun _ _ no => nomatch no

theorem Hosts.counters_eq (h : Hosts C types e) (counters : Counters) :
    Hosts C types { e with counters := counters } :=
  ⟨h.catalog_eq, h.registry, h.schemas, h.linked⟩

theorem Hosts.registry_eq (h : Hosts C types e) {r : Registry} (versed : r.Versed C types)
    (more : ∀ name, e.registry.Declares name → r.Declares name) :
    Hosts C types { e with registry := r } where
  catalog_eq := h.catalog_eq
  registry := versed
  schemas := fun t S found => (h.schemas t S found).mono more
  linked := h.linked

theorem Hosts.add_schema (h : Hosts C types e) {S : Schema}
    (extracted : Extracted C e.registry t S) :
    Hosts C types { e with schemas := e.schemas.add t S } where
  catalog_eq := h.catalog_eq
  registry := h.registry
  schemas := by
    intro t' S' found
    rcases Cache.get?_add_eq_some found with old | ⟨-, rfl, rfl⟩
    · exact h.schemas t' S' old
    · exact extracted
  linked := h.linked

theorem Hosts.add_codec (h : Hosts C types e) (involves : C.Involves types t) {c : Codec}
    (named : t.name = c.typeName) (fits : C.Fits c.plan t) : Hosts C types (e.note c) where
  catalog_eq := h.catalog_eq
  registry := h.registry
  schemas := h.schemas
  linked := by
    intro name plan known
    obtain ⟨c', found, rfl⟩ := plan?_eq_some.mp known
    rcases Cache.get?_add_eq_some found with old | ⟨-, rfl, rfl⟩
    · exact h.linked name c'.plan (plan?_eq_some.mpr ⟨c', old, rfl⟩)
    · exact ⟨t, occurs_involved.mpr involves, named, fits⟩

theorem Hosts.fits (h : Hosts C types e) (legible : C.Legible types) (involves : C.Involves types t)
    {c : Codec} (found : e.compiled.get? t.name = some c) : C.Fits c.plan t :=
  h.linked.fits legible.consistent (occurs_involved.mpr involves) (legible.bound involves)
    (plan?_eq_some.mpr ⟨c, found, rfl⟩)

theorem hosts_resolving {α : Type} {step : Action Registry α} {P Q : α → Prop} {R : Error → Prop}
    (versed : step.Keeps (Registry.Versed C types) (fun _ => True) P)
    (writes : ∀ r, step.Keeps (Registry.Writes r) R Q) :
    (resolving step).Keeps (Hosts C types) (fun _ => True) P := by
  intro e h
  rw [ends_resolving]
  refine ((versed e.registry h.registry).and (writes e.registry e.registry .refl)).mono ?_ ?_
  · rintro x r ⟨⟨versed, hx⟩, written, -⟩
    exact ⟨h.registry_eq versed fun _ => written.declares, hx⟩
  · rintro err r ⟨⟨versed, -⟩, written, -⟩
    exact ⟨h.registry_eq versed fun _ => written.declares, trivial⟩

theorem hosts_resolve (legible : C.Legible types) (name : String) :
    (resolve name).Keeps (Hosts C types) (fun _ => True) (C.Renders types name) :=
  hosts_resolving (Registry.versed_resolve legible name) fun _ => Registry.writes_resolve name

/-! ## Extraction -/

theorem ends_extract_hosted (legible : C.Legible types) (involves : C.Involves types t)
    (portrays : C.Portrays types d t) (h : Hosts C types e) :
    (extract d).Ends e
      (fun S e' => Hosts C types e' ∧ ∃ ext, Extraction.ofDescriptor C d = .ok ext ∧
        S = ext.schema ∧ ∀ r ∈ ext.records, e'.registry.Declares r.name)
      fun err e' => Hosts C types e' ∧ Extraction.ofDescriptor C d = .error err := by
  unfold extract
  rw [ends_bind, ends_get, h.catalog_eq, ends_bind]
  refine ends_ofExcept.mpr ⟨?_, fun err failed => ⟨h, failed⟩⟩
  intro ext accepted
  have portrayed := (closed_of_portrayed legible portrays involves accepted).1
  have versed : (declareAll C ext.records).Keeps (Registry.Versed C types) (fun _ => True)
      fun _ => True := by
    refine Registry.keeps_declareAll fun r hr _ => Registry.keeps_declare fun _ known _ => ?_
    obtain ⟨⟨id, args, involves', portrays'⟩, -⟩ := portrayed r hr
    exact known.declare (portrays'.renders legible involves')
  rw [ends_bind, ends_report, ends_bind, ends_resolving]
  refine ((versed _ h.registry).and (Registry.ends_declareAll_declares C _ _)).mono ?_
    fun _ _ no => no.2.elim
  rintro _ r ⟨⟨versed, -⟩, old, declared⟩
  refine ⟨h.registry_eq versed old, ext, accepted, rfl, fun r' hr' => declared r' hr' ?_⟩
  obtain ⟨⟨id, args, involves', portrays'⟩, -⟩ := portrayed r' hr'
  exact portrays'.origin_ne legible

/-! ## Compilation -/

theorem steady_hosts (legible : C.Legible types) (involves : C.Involves types t)
    (portrays : C.Portrays types d t) (accepted : Extraction.ofDescriptor C d = .ok ext) :
    Steady C (C.involved types) ext.records fun e =>
      Hosts C types e ∧ ∀ r ∈ ext.records, e.registry.Declares r.name := by
  have closed := (closed_of_portrayed legible portrays involves accepted).1
  rintro e ⟨h, declared⟩
  refine ⟨h.catalog_eq, fun r hr id args node depicts lists => ?_⟩
  have involves' := occurs_involved.mp lists.occurs
  have named : node.typeName = r.name := lists.named.trans depicts.name_eq.symm
  have atomic : TypeName.Atomic node.typeName :=
    lists.named ▸ (legible.wellFormed id args involves').toAtomic
  refine (Registry.ends_resolveNode_versed legible h.registry atomic
    (named ▸ declared r hr)).mono ?_ fun _ _ no => no
  rintro d' registry ⟨⟨versed, written⟩, renders⟩
  have depicts' := (renders _ involves' lists.named.symm).depicts legible involves'
    (.inr ⟨rfl, r, hr, depicts.name_eq⟩) closed
  refine ⟨depicts', fun plan chosen => ⟨?_, fun r' hr' => written.declares (declared r' hr')⟩⟩
  have fits := h.linked.fits_ofNode legible.consistent lists depicts' chosen
  exact (h.registry_eq versed fun _ => written.declares).add_codec involves' lists.named.symm fits

theorem ends_compile_hosted (legible : C.Legible types) (involves : C.Involves types t)
    (portrays : C.Portrays types d t) (accepted : Extraction.ofDescriptor C d = .ok ext)
    (h : Hosts C types e) (declared : ∀ r ∈ ext.records, e.registry.Declares r.name) :
    (compile ext.schema (some d)).Ends e
      (fun c e' => Hosts C types e' ∧ e'.compiled.get? t.name = some c ∧ C.Fits c.plan t)
      fun _ _ => False := by
  obtain ⟨closed, covered⟩ := closed_of_portrayed legible portrays involves accepted
  refine (ends_compile_steady legible.consistent (occurs_involved.mpr involves)
    (portrays.depicts legible involves covered closed) accepted
    (steady_hosts legible involves portrays accepted) (fun _ he => he.1.linked) ?_
    ⟨h, declared⟩).mono (fun _ _ done => ⟨done.1.1, done.2⟩) fun _ _ no => no
  exact fun e plan he fits =>
    ⟨he.1.add_codec (c := ⟨t.name, plan, e.limits⟩) involves rfl fits, he.2⟩

theorem supports_hosts (legible : C.Legible types) (involves : C.Involves types t) :
    Supports C t (Hosts C types) where
  counters := fun _ counters h => h.counters_eq counters
  schemas := fun _ S h found => h.schemas t S found
  add_schema := fun _ _ h extracted => h.add_schema extracted
  extract := fun _ h => ends_extract_hosted legible involves (portrays_describe legible involves) h
  fits := fun _ _ h _ found => h.fits legible involves found
  compile := fun _ _ h accepted declared =>
    ends_compile_hosted legible involves (portrays_describe legible involves) accepted h declared

/-- Where the name of a type resolves, it has a coding that fits the type, or extraction of the type
fails. -/
theorem ends_codecOfName_hosted (legible : C.Legible types) (involves : C.Involves types t)
    {R : Error → Engine → Prop} (h : Hosts C types e)
    (resolved : (resolve t.name).Ends e
      (fun d e' => Hosts C types e' ∧ C.Renders types t.name d) R) :
    (codecOfName t.name).Ends e (fun c e' => Hosts C types e' ∧ C.Fits c.plan t)
      fun err e' => R err e' ∨ Hosts C types e' ∧ ¬ C.Accepts t := by
  unfold codecOfName
  rw [ends_bind, ends_get]
  split
  · next c found => exact ⟨h, h.fits legible involves found⟩
  · rw [ends_bind]
    refine resolved.mono ?_ fun _ _ failed => .inl failed
    rintro d e' ⟨h', renders⟩
    have portrays := renders t involves rfl
    rw [ends_bind]
    refine (ends_extract_hosted legible involves portrays h').mono ?_ ?_
    · rintro _ e'' ⟨h'', ext, accepted, rfl, declared⟩
      exact (ends_compile_hosted legible involves portrays accepted h'' declared).mono
        (fun _ _ done => ⟨done.1, done.2.2⟩) fun _ _ no => no.elim
    · rintro err e'' ⟨h'', failed⟩
      refine .inr ⟨h'', ?_⟩
      rintro ⟨ext, accepted⟩
      obtain ⟨ext', accepted', -⟩ := accepts_portrayed legible portrays involves accepted
      cases failed.symm.trans accepted'

end SchemaCodec.Engine
