import SchemaCodec.Proofs.Engine.Compilation
import SchemaCodec.Proofs.Program.Fitting
import SchemaCodec.Proofs.Registry.Faithful

/-! # Codings of the types of a set

An engine that is only given types of a consistent set, as the program declares them or in schemas
that were extracted from them, holds codings that fit these types, each under the name of its type.
-/

namespace SchemaCodec

open SchemaCodec.Action MessageType Catalog

variable {K C : Catalog} {limits : Limits} {types : Set MessageType}
  {held : String → Codec → Prop} {t : MessageType} {d : Descriptor} {ext : Extraction}
  {S : Schema} {name : String} {c : Codec}

namespace Catalog

/-- The schema is one of the type: it lists records of the set, and its root has the name of the
type. -/
structure Outlines (C : Catalog) (types : Set MessageType) (S : Schema) (t : MessageType) :
    Prop where
  occurs : C.Occurs types t
  bound : Bound t
  named : S.typeName = t.name
  nodes : ∀ node ∈ S.types, ∃ id args, C.Lists types id args node

theorem outlines_extracted (consistent : C.Consistent types) (occurs : C.Occurs types t)
    (depicts : Depicts K C types d t) (h : Extraction.ofDescriptor K d = .ok ext) :
    C.Outlines types ext.schema t where
  occurs := occurs
  bound := bound_of_covered depicts (closed_of_extracted consistent occurs depicts h).2
  named := (Extraction.ofDescriptor_eq_ok h).2.1.trans depicts.name_eq
  nodes := lists_extracted consistent occurs depicts h

end Catalog

/-- The coding has the limits, and its plan fits the type. -/
def Codec.Suits (C : Catalog) (limits : Limits) (t : MessageType) (c : Codec) : Prop :=
  c.limits = limits ∧ C.Fits c.plan t

namespace Engine

/-! ## The state -/

/-- The schema is that of the type, and all of its records are declared. -/
def Extracted (K : Catalog) (r : Registry) (t : MessageType) (schema : Schema) : Prop :=
  ∃ ext, Extraction.ofDescriptor K t.describe = .ok ext ∧ schema = ext.schema ∧
    ∀ d ∈ ext.records, r.Declares d.name

/-- The engine, with the catalogue `K`, knows only types of the set; each coding fits a type of its
name, and the codings that were held before are held. -/
structure Serves (K C : Catalog) (limits : Limits) (types : Set MessageType)
    (held : String → Codec → Prop) (e : Engine) : Prop where
  catalog_eq : e.catalog = K
  limits_eq : e.limits = limits
  registry : e.registry.Faithful K C types
  schemas : ∀ t schema, e.schemas.get? t = some schema → Extracted K e.registry t schema
  compiled : ∀ name c, e.compiled.get? name = some c → c.limits = limits ∧
    ∃ t, C.Occurs types t ∧ t.name = name ∧ C.Fits c.plan t
  held : ∀ name c, held name c → e.compiled.get? name = some c

variable {e : Engine}

theorem serves_fresh (C : Catalog) (limits : Limits) (types : Set MessageType) :
    Serves K C limits types (fun _ _ => False) (fresh K limits) where
  catalog_eq := rfl
  limits_eq := rfl
  registry := Registry.faithful_empty K C types
  schemas := fun _ _ no => nomatch no
  compiled := fun _ _ no => nomatch no
  held := fun _ _ no => no.elim

theorem Extracted.mono {r r' : Registry} {schema : Schema} (h : Extracted K r t schema)
    (more : ∀ name, r.Declares name → r'.Declares name) : Extracted K r' t schema := by
  obtain ⟨ext, extracted, rfl, declared⟩ := h
  exact ⟨ext, extracted, rfl, fun d hd => more _ (declared d hd)⟩

theorem Serves.linked (h : Serves K C limits types held e) : C.Linked types e.plan? := by
  intro name plan found
  obtain ⟨c, hc, rfl⟩ := plan?_eq_some.mp found
  exact (h.compiled name c hc).2

theorem Serves.fits (consistent : C.Consistent types) (h : Serves K C limits types held e)
    (occurs : C.Occurs types t) (bound : Bound t) (found : e.compiled.get? t.name = some c) :
    C.Fits c.plan t :=
  h.linked.fits consistent occurs bound (plan?_eq_some.mpr ⟨c, found, rfl⟩)

theorem Serves.registry_eq (h : Serves K C limits types held e) {r : Registry}
    (faithful : r.Faithful K C types) (more : ∀ name, e.registry.Declares name → r.Declares name) :
    Serves K C limits types held { e with registry := r } where
  catalog_eq := h.catalog_eq
  limits_eq := h.limits_eq
  registry := faithful
  schemas := fun t schema found => (h.schemas t schema found).mono more
  compiled := h.compiled
  held := h.held

theorem Serves.add_codec (h : Serves K C limits types held e) (occurs : C.Occurs types t)
    (named : t.name = c.typeName) (fits : C.Fits c.plan t) (bound : c.limits = limits) :
    Serves K C limits types held (e.note c) where
  catalog_eq := h.catalog_eq
  limits_eq := h.limits_eq
  registry := h.registry
  schemas := h.schemas
  compiled := by
    intro name c' found
    rcases Cache.get?_add_eq_some found with old | ⟨-, rfl, rfl⟩
    · exact h.compiled name c' old
    · exact ⟨bound, t, occurs, named, fits⟩
  held := fun name c' hc => Cache.get?_add_of_some (h.held name c' hc) _ _

theorem Serves.add_schema (h : Serves K C limits types held e) {schema : Schema}
    (extracted : Extracted K e.registry t schema) :
    Serves K C limits types held { e with schemas := e.schemas.add t schema } where
  catalog_eq := h.catalog_eq
  limits_eq := h.limits_eq
  registry := h.registry
  schemas := by
    intro t' schema' found
    rcases Cache.get?_add_eq_some found with old | ⟨-, rfl, rfl⟩
    · exact h.schemas t' schema' old
    · exact extracted
  compiled := h.compiled
  held := h.held

theorem Serves.counters_eq (h : Serves K C limits types held e) (counters : Counters) :
    Serves K C limits types held { e with counters := counters } :=
  ⟨h.catalog_eq, h.limits_eq, h.registry, h.schemas, h.compiled, h.held⟩

theorem serves_count (f : Counters → Counters) :
    (count f).Keeps (Serves K C limits types held) (fun _ => True) fun _ => True :=
  keeps_modify fun _ h => h.counters_eq _

/-! ## Resolution -/

theorem serves_resolving {α : Type} {step : Action Registry α} {P : α → Prop}
    {R : Registry → Error → Prop}
    (h : ∀ r : Registry, r.Faithful K C types →
      step.Ends r (fun x r' => r'.Faithful K C types ∧ r'.declared = r.declared ∧ P x)
        fun err r' => r'.Faithful K C types ∧ r'.declared = r.declared ∧ R r err)
    (served : Serves K C limits types held e) :
    (resolving step).Ends e
      (fun x e' => Serves K C limits types held e' ∧ e'.registry.declared = e.registry.declared ∧
        P x)
      fun err e' => Serves K C limits types held e' ∧ R e.registry err := by
  have more : ∀ r : Registry, r.declared = e.registry.declared →
      ∀ name, e.registry.Declares name → r.Declares name := fun r same name known => by
    rwa [Registry.Declares, same]
  rw [ends_resolving]
  refine (h e.registry served.registry).mono ?_ ?_
  · rintro x r ⟨faithful, same, hx⟩
    exact ⟨served.registry_eq faithful (more r same), same, hx⟩
  · rintro err r ⟨faithful, same, failed⟩
    exact ⟨served.registry_eq faithful (more r same), failed⟩

theorem serves_resolve (consistent : C.Consistent types) (occurs : C.Occurs types t)
    (bound : Bound t) :
    (resolve t.name).Keeps (Serves K C limits types held) (fun _ => True)
      fun d => Depicts K C types d t := by
  intro e h
  refine (serves_resolving (R := fun _ _ => True) (fun r faithful => ?_) h).mono
    (fun _ _ done => ⟨done.1, done.2.2⟩) fun _ _ failed => failed
  refine (Registry.ends_resolve_bound consistent faithful occurs bound).mono
    (fun _ _ done => done) ?_
  rintro err r' ⟨-, rfl, -⟩
  exact ⟨faithful, rfl, trivial⟩

theorem serves_resolve_named (consistent : C.Consistent types)
    (spans : ∀ storage t, C.Occurs types t → C.Occurs types (.sequence storage t))
    (occurs : C.Occurs types t) :
    (resolve t.name).Keeps (Serves K C limits types held) (fun _ => True)
      fun d => Describes K C types t.name d := by
  intro e h
  refine (serves_resolving (R := fun _ _ => True) (fun r faithful => ?_) h).mono
    (fun _ _ done => ⟨done.1, done.2.2⟩) fun _ _ failed => failed
  exact (Registry.ends_resolve_named consistent spans faithful occurs).mono
    (fun _ _ done => done) fun _ _ failed => ⟨failed.1, failed.2, trivial⟩

theorem ends_resolveNode (consistent : C.Consistent types) (h : Serves K C limits types held e)
    {id : RecordId} {args : List MessageType} {node : Node} (lists : C.Lists types id args node) :
    (resolveNode node).Ends e
      (fun d e' => Serves K C limits types held e' ∧
        e'.registry.declared = e.registry.declared ∧ Depicts K C types d (.record id args))
      fun _ e' => Serves K C limits types held e' ∧ ¬ e.registry.Declares node.typeName :=
  serves_resolving (R := fun r _ => ¬ r.Declares node.typeName)
    (fun _ faithful => Registry.ends_resolveNode_listed consistent faithful lists) h

theorem serves_resolveNode (consistent : C.Consistent types) {id : RecordId}
    {args : List MessageType} {node : Node} (lists : C.Lists types id args node) :
    (resolveNode node).Keeps (Serves K C limits types held) (fun _ => True)
      fun d => Depicts K C types d (.record id args) :=
  fun _ h => (ends_resolveNode consistent h lists).mono (fun _ _ done => ⟨done.1, done.2.2⟩)
    fun _ _ failed => ⟨failed.1, trivial⟩

theorem serves_resolveSchema (consistent : C.Consistent types) (outlines : C.Outlines types S t) :
    (resolveSchema S).Keeps (Serves K C limits types held) (fun _ => True) fun _ => True := by
  refine (Keeps.traverse (Q := fun _ _ => True) fun node mem => ?_).bind fun _ _ => ?_
  · obtain ⟨id, args, lists⟩ := outlines.nodes node mem
    exact (serves_resolveNode consistent lists).weaken
  · rw [outlines.named]
    exact (serves_resolve consistent outlines.occurs outlines.bound).weaken

/-! ## Extraction -/

theorem ends_extract (consistent : C.Consistent types) (occurs : C.Occurs types t)
    (depicts : Depicts K C types d t) (h : Serves K C limits types held e) :
    (extract d).Ends e
      (fun schema e' => Serves K C limits types held e' ∧
        ∃ ext, Extraction.ofDescriptor K d = .ok ext ∧ schema = ext.schema ∧
          ∀ r ∈ ext.records, r.origin K ≠ .synthesized → e'.registry.Declares r.name)
      fun err e' => Serves K C limits types held e' ∧ Extraction.ofDescriptor K d = .error err := by
  unfold extract
  rw [ends_bind, ends_get, h.catalog_eq, ends_bind]
  refine ends_ofExcept.mpr ⟨?_, fun err failed => ⟨h, failed⟩⟩
  intro ext extracted
  have describes : ∀ r ∈ ext.records, Describes K C types r.name r := by
    intro r mem
    obtain ⟨⟨id, args, occurs', depicts'⟩, -⟩ :=
      (closed_of_extracted consistent occurs depicts extracted).1 r mem
    exact ⟨_, occurs', .record id args, depicts'.name_eq.symm, depicts'⟩
  rw [ends_bind, ends_report, ends_bind, ends_resolving]
  refine (Registry.ends_declareAll h.registry describes).mono ?_ fun _ _ no => no.elim
  rintro _ r ⟨faithful, old, declared⟩
  exact ⟨h.registry_eq faithful old, ext, extracted, rfl, declared⟩

theorem serves_extract (consistent : C.Consistent types) (occurs : C.Occurs types t)
    (depicts : Depicts K C types d t) :
    (extract d).Keeps (Serves K C limits types held) (fun _ => True)
      fun schema => C.Outlines types schema t := by
  intro e h
  refine (ends_extract consistent occurs depicts h).mono ?_ fun _ _ failed => ⟨failed.1, trivial⟩
  rintro _ e' ⟨h', ext, extracted, rfl, -⟩
  exact ⟨h', outlines_extracted consistent occurs depicts extracted⟩

/-! ## Compilation -/

theorem serves_keep (consistent : C.Consistent types) (occurs : C.Occurs types t)
    (named : t.name = c.typeName) (fits : C.Fits c.plan t) (bound : c.limits = limits) :
    (keep c).Keeps (Serves K C limits types held) (fun _ => True)
      (Codec.Suits C limits t) := by
  intro e h
  refine ⟨h.add_codec occurs named fits bound, ?_⟩
  refine Cache.getOr_eq (Codec.Suits C limits t) (fun c' found => ?_) ⟨bound, fits⟩
  rw [← named] at found
  exact ⟨(h.compiled _ c' found).1, h.fits consistent occurs fits.bound found⟩

theorem serves_compileNodes (consistent : C.Consistent types) {nodes : List Node}
    (listed : ∀ node ∈ nodes, ∃ id args, C.Lists types id args node) :
    (compileNodes nodes).Keeps (Serves K C limits types held) (fun _ => True)
      fun _ => True := by
  induction nodes with
  | nil => exact keeps_pure trivial
  | cons node nodes ih =>
    have rest := ih fun n mem => listed n (List.mem_cons_of_mem node mem)
    obtain ⟨id, args, lists⟩ := listed node List.mem_cons_self
    rw [compileNodes]
    refine keeps_get.bind fun _ _ => ?_
    split
    · exact rest
    · refine (serves_resolveNode consistent lists).bind fun d depicts => ?_
      refine keeps_get.bind fun e he => ?_
      refine (keeps_ofExcept (P := fun plan => C.Fits plan (.record id args)) (fun plan chosen => ?_)
        fun _ _ => trivial).bind fun plan fits => ?_
      · rw [he.catalog_eq] at chosen
        exact he.linked.fits_ofNode consistent lists depicts chosen
      · exact (keeps_report _).bind fun _ _ =>
          (serves_keep (c := ⟨node.typeName, plan, e.limits⟩) consistent lists.occurs
            lists.named.symm fits he.limits_eq).bind fun _ _ => rest

theorem serves_compileRoot (consistent : C.Consistent types) (occurs : C.Occurs types t)
    (named : t.name = name) (depicts : Depicts K C types d t) :
    (compileRoot name d).Keeps (Serves K C limits types held) (fun _ => True)
      (Codec.Suits C limits t) := by
  refine keeps_get.bind fun e he => ?_
  refine (keeps_ofExcept (P := fun plan => C.Fits plan t) (fun plan chosen => ?_)
    fun _ _ => trivial).bind fun plan fits => ?_
  · exact he.linked.fits_chosen consistent (Plan.choose_iff.mp chosen) depicts occurs
  · exact (keeps_report _).bind fun _ _ =>
      serves_keep (c := ⟨name, plan, e.limits⟩) consistent occurs named fits he.limits_eq

theorem serves_rootType (consistent : C.Consistent types) (outlines : C.Outlines types S t)
    {root : Option Descriptor} (given : ∀ d, root = some d → Depicts K C types d t) :
    (rootType S root).Keeps (Serves K C limits types held) (fun _ => True)
      fun d => Depicts K C types d t := by
  cases root with
  | some d => exact keeps_pure (given d rfl)
  | none =>
    rw [rootType, outlines.named]
    exact serves_resolve consistent outlines.occurs outlines.bound

theorem serves_compileRound (consistent : C.Consistent types)
    {again : Schema → Descriptor → Action Engine Codec}
    (again_serves : ∀ full d, C.Outlines types full t → Depicts K C types d t →
      (again full d).Keeps (Serves K C limits types held) (fun _ => True)
        (Codec.Suits C limits t))
    (outlines : C.Outlines types S t) {root : Option Descriptor}
    (given : ∀ d, root = some d → Depicts K C types d t) :
    (compileRound again S root).Keeps (Serves K C limits types held) (fun _ => True)
      (Codec.Suits C limits t) := by
  refine (serves_compileNodes consistent outlines.nodes).bind fun _ _ => keeps_get.bind
    fun e he => ?_
  split
  · next c found =>
    rw [outlines.named] at found
    exact keeps_pure ⟨(he.compiled _ c found).1,
      he.fits consistent outlines.occurs outlines.bound found⟩
  · refine (serves_rootType consistent outlines given).bind fun d depicts => ?_
    split
    · refine (serves_extract consistent outlines.occurs depicts).bind fun full whole => ?_
      split
      · exact keeps_fail trivial
      · exact again_serves full d whole depicts
    · exact serves_compileRoot consistent outlines.occurs outlines.named.symm depicts

/-- What a schema of a type is compiled to fits the type. -/
theorem serves_compile (consistent : C.Consistent types) (outlines : C.Outlines types S t)
    {root : Option Descriptor} (given : ∀ d, root = some d → Depicts K C types d t) :
    (compile S root).Keeps (Serves K C limits types held) (fun _ => True)
      (Codec.Suits C limits t) := by
  have last : ∀ full d, C.Outlines types full t → Depicts K C types d t →
      (compileWithin 0 full (some d)).Keeps (Serves K C limits types held) (fun _ => True)
        (Codec.Suits C limits t) := by
    intro full d whole depicts
    refine serves_compileRound consistent (fun _ _ _ _ => keeps_fail trivial) whole ?_
    rintro _ ⟨⟩
    exact depicts
  exact serves_compileRound consistent last outlines given

theorem serves_codecOfSchema (consistent : C.Consistent types) (outlines : C.Outlines types S t) :
    (codecOfSchema S).Keeps (Serves K C limits types held) (fun _ => True)
      (Codec.Suits C limits t) := by
  refine keeps_get.bind fun e he => ?_
  split
  · next c found =>
    rw [outlines.named] at found
    exact (serves_count _).bind fun _ _ => keeps_pure ⟨(he.compiled _ c found).1,
      he.fits consistent outlines.occurs outlines.bound found⟩
  · exact (serves_count _).bind fun _ _ => serves_compile consistent outlines fun _ no => nomatch no

theorem serves_codecOfName (consistent : C.Consistent types)
    (spans : ∀ storage t, C.Occurs types t → C.Occurs types (.sequence storage t))
    (occurs : C.Occurs types t) :
    (codecOfName t.name).Keeps (Serves K C limits types held) (fun _ => True) fun _ => True := by
  refine keeps_get.bind fun e _ => ?_
  split
  · exact keeps_pure trivial
  · refine (serves_resolve_named consistent spans occurs).bind fun d describes => ?_
    obtain ⟨t', occurs', -, -, depicts⟩ := describes
    refine (serves_extract consistent occurs' depicts).bind fun S outlines => ?_
    refine (serves_compile consistent outlines ?_).weaken
    rintro _ ⟨⟩
    exact depicts

end Engine

end SchemaCodec
