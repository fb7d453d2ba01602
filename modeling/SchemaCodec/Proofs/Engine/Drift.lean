import SchemaCodec.Proofs.Engine.CompilationOrder
import SchemaCodec.Proofs.Engine.Frame
import SchemaCodec.Proofs.Engine.Guarded

/-! # Schema drift

The schema of a record may come from a program that declares the record otherwise. An engine that
was told of its own type first takes such a schema only where it says nothing that the type does
not, so what is read by it is an instance of the type, or the bytes are at fault.
-/

namespace SchemaCodec

open SchemaCodec.Action MessageType Catalog Discovery

variable {C : Catalog} {limits : Limits} {t t' : MessageType} {ext : Extraction} {id : RecordId}
  {args : List MessageType}

/-! ## Accepted types -/

namespace Catalog

theorem alike_describe (h : MessageType.Alike t t') :
    Descriptor.Alike t.describe t'.describe := by
  induction h with
  | primitive p => exact .primitive p
  | parameter i => exact .parameter i
  | sequence _ ih => exact .sequence ih
  | record same => exact .record rfl rfl same

theorem covered_of_occurs (consistent : C.Consistent {t})
    (accepted : Extraction.ofDescriptor C t.describe = .ok ext) (h : C.Occurs {t} t') :
    Covered ext.records t'.describe := by
  obtain ⟨closed, covered⟩ := closed_of_accepted (.of_mem (Set.mem_singleton t)) accepted
  induction h with
  | of_mem mem =>
    obtain rfl := Set.mem_singleton_iff.mp mem
    exact covered
  | element _ ih => exact ih
  | @member id args name t' occurs mem ih =>
    obtain ⟨r, hr, same⟩ := ih.exists_found rfl
    obtain ⟨⟨id', args', rfl, occurs'⟩, closed'⟩ := closed r hr
    have members := consistent.unique id' args' id args occurs' occurs same
    obtain ⟨m, hm, -, alike⟩ := partner_left members mem
    have inner := closed'.covered (m.1, m.2.describe) (List.mem_map.mpr ⟨m, hm, rfl⟩)
    exact inner.alike (alike_describe alike)

theorem exists_found_of_occurs (consistent : C.Consistent {t})
    (accepted : Extraction.ofDescriptor C t.describe = .ok ext)
    (h : C.Occurs {t} (.record id args)) :
    ∃ r ∈ ext.records, Depicts C C {t} r (.record id args) ∧ Closed C ext.records r := by
  obtain ⟨closed, -⟩ := closed_of_accepted (.of_mem (Set.mem_singleton t)) accepted
  obtain ⟨r, hr, same⟩ := (covered_of_occurs consistent accepted h).exists_found rfl
  obtain ⟨⟨id', args', rfl, occurs'⟩, closed'⟩ := closed r hr
  exact ⟨_, hr, .declared rfl occurs' same, closed'⟩

end Catalog

namespace Engine

variable {e : Engine} {declared : Cache String Descriptor} {S : Schema} {ops : List Operation}

/-! ## The first call -/

theorem pristine_schemaOf (t : MessageType) :
    (schemaOf t).Keeps (fun e => e.catalog = C ∧ e.registry.Pristine C {t}) (fun _ => True)
      fun _ => True := by
  have extracted : (extract t.describe).Keeps
      (fun e => e.catalog = C ∧ e.registry.Pristine C {t}) (fun _ => True) fun _ => True := by
    apply keeps_extract
    · rintro e ⟨rfl, -⟩ ext accepted
      obtain ⟨closed, -⟩ := closed_of_accepted (.of_mem (Set.mem_singleton t)) accepted
      have own : ∀ r ∈ ext.records, e.catalog.DeclaredAs {t} r.name r := by
        intro r hr
        obtain ⟨⟨id, args, rfl, occurs⟩, -⟩ := closed r hr
        exact ⟨id, args, rfl, occurs, rfl⟩
      exact ⟨trivial, (Registry.pristine_declareAll own).within (fun _ he => he.2)
        fun _ _ hr he => ⟨he.1, hr⟩⟩
    · exact fun _ _ _ _ => trivial
  exact keeps_schemaOf (fun _ => keeps_modify fun _ he => he) (fun _ _ _ _ => trivial) extracted
    (fun _ _ => trivial) fun _ _ he _ => he

theorem ends_register_guarded (limits : Limits) (consistent : C.Consistent {t})
    (accepted : Extraction.ofDescriptor C t.describe = .ok ext) :
    (register t).Ends (fresh C limits)
      (fun _ e => C.Enlists {t} e.registry.declared ∧
        Guarded C t ext.schema e.registry.declared e) fun _ _ => False := by
  have occurs : C.Occurs {t} t := .of_mem (Set.mem_singleton t)
  have served := ends_schemaOf consistent occurs (serves_fresh C limits {t})
  have nothing := keeps_compiled .empty t (fresh C limits) rfl
  have pristine := pristine_schemaOf t (fresh C limits) ⟨rfl, Registry.pristine_empty C {t}⟩
  have held := ends_schemaOf_held t (fresh C limits)
  rw [register, ends_bind]
  apply (((served.and nothing).and pristine).and held).mono
  · rintro schema e ⟨⟨⟨⟨-, ext', accepted', rfl, known⟩, compiled, -⟩, ⟨same, pristine⟩, -⟩, held⟩
    obtain rfl := Except.ok.inj (accepted.symm.trans accepted')
    refine ends_pure.mpr ⟨⟨consistent, ?_, pristine.declared, ?_⟩, same, held, pristine.guarded, ?_⟩
    · intro id args occurs
      obtain ⟨r, -, depicts, closed⟩ := exists_found_of_occurs consistent accepted occurs
      exact depicts.nodup consistent occurs closed.unique
    · intro id args occurs
      obtain ⟨r, hr, depicts, -⟩ := exists_found_of_occurs consistent accepted occurs
      exact depicts.name_eq ▸ known r hr
    · intro name plan found
      simp [plan?, compiled] at found
  · rintro err e ⟨⟨⟨⟨-, failed⟩, -⟩, -⟩, -⟩
    cases accepted.symm.trans failed

/-! ## Calls about the type -/

theorem guarded_schemaOf {schema : Schema} :
    (schemaOf t).Keeps (Guarded C t schema declared) (fun _ => False) fun S => S = schema := by
  apply keeps_get.bind fun e he => ?_
  rw [he.schemas]
  exact (guarded_count _ _).bind fun _ _ => keeps_pure rfl

/-- The records of the type are compiled in the order in which they are listed, if not before. -/
theorem steady_guarded (enlists : C.Enlists {t} declared) (schema : Schema)
    (records : List Descriptor) : Steady C {t} records (Guarded C t schema declared) := by
  intro e h
  refine ⟨h.catalog_eq, fun _ _ id args node _ lists => ?_⟩
  apply (Registry.guarded_resolveNode enlists node e.registry h.registry).mono
  · rintro d r ⟨guarded, upholds⟩
    refine ⟨enlists.depicts lists.occurs (lists.named ▸ upholds), fun plan chosen => ?_⟩
    have h' : Guarded C t schema declared { e with registry := r } :=
      ⟨h.catalog_eq, h.schemas, guarded, h.vetted⟩
    exact h'.note (h.conforms_ofNode enlists upholds chosen)
  · rintro err r ⟨-, missing⟩
    obtain ⟨d, listed⟩ := enlists.complete id args lists.occurs
    rw [lists.named, listed] at missing
    cases missing

theorem guarded_codecOf (enlists : C.Enlists {.record id args} declared)
    (accepted : Extraction.ofDescriptor C (.declared id args) = .ok ext) :
    (codecOf (.record id args)).Keeps (Guarded C (.record id args) ext.schema declared)
      (fun _ => False) fun c => C.Conforms c.plan (.record id args) := by
  have occurs : C.Occurs {.record id args} (.record id args) := .of_mem (Set.mem_singleton _)
  have named : ext.schema.typeName = (MessageType.record id args).name :=
    (Extraction.ofDescriptor_eq_ok accepted).2.1
  have compiled : (compile ext.schema (some (.declared id args))).Keeps
      (Guarded C (.record id args) ext.schema declared) (fun _ => False)
      fun c => C.Conforms c.plan (.record id args) := by
    intro e h
    show (compileWithin (0 + 1) ext.schema (some (.declared id args))).Ends e _ _
    rw [compileWithin, compileRound, ends_bind]
    apply (ends_compile_types enlists.consistent occurs (depicts_describe occurs) accepted
      (steady_guarded enlists ext.schema ext.records) h).mono
    · rintro _ e' ⟨h', plan, ready⟩
      obtain ⟨c, found, rfl⟩ := plan?_eq_some.mp ready
      rw [ends_bind, ends_get, named, found]
      exact ⟨h', h'.conformsAs found id args occurs rfl⟩
    · exact fun _ _ no => no.elim
  apply guarded_schemaOf.bind
  rintro _ rfl
  apply keeps_get.bind fun e he => ?_
  split
  · next c found =>
    exact (guarded_count _ _).bind fun _ _ =>
      keeps_pure (he.conformsAs found id args occurs named.symm)
  · exact (guarded_count _ _).bind fun _ _ => (keeps_report _).bind fun _ _ => compiled

/-! ## Runs -/

/-- The call works by a schema or by a name, or it is about the type. -/
def Operation.BySchema (t : MessageType) : Operation → Prop
  | schemaOf t' => t' = t
  | extract d => d = t.describe
  | register t' => t' = t
  | registerGeneric _ => False
  | declare _ => False
  | codecOf t' => t' = t
  | serialize t' _ => t' = t
  | serializeInto t' _ _ => t' = t
  | serializeAt t' _ _ _ => t' = t
  | messageSize t' _ => t' = t
  | deserialize t' _ => t' = t
  | deserializeFrom t' _ => t' = t
  | _ => True

section Run

variable (enlists : C.Enlists {.record id args} declared)
  (accepted : Extraction.ofDescriptor C (.declared id args) = .ok ext)

include enlists accepted

theorem guarded_preserves {op : Operation} (bySchema : op.BySchema (.record id args)) :
    op.Preserves (Guarded C (.record id args) ext.schema declared) := by
  have occurs : C.Occurs {.record id args} (.record id args) := .of_mem (Set.mem_singleton _)
  cases op with
  | schemaOf t | register t =>
    obtain rfl := bySchema
    exact guarded_schemaOf.weaken
  | extract d =>
    obtain rfl := bySchema
    exact (guarded_extract enlists (confined_describe occurs)).weaken
  | registerGeneric _ | declare _ => exact bySchema.elim
  | resolve name => exact (guarded_resolving (Registry.guarded_resolve enlists name)).weaken
  | resolveNode node => exact (guarded_resolving (Registry.guarded_resolveNode enlists node)).weaken
  | resolveSchema S => exact guarded_resolveSchema enlists S
  | codecOf t | serialize t _ | serializeInto t _ _ | serializeAt t _ _ _ | messageSize t _
  | deserialize t _ | deserializeFrom t _ =>
    obtain rfl := bySchema
    exact (guarded_codecOf enlists accepted).weaken
  | codecOfSchema S | serializeValue S _ | serializeValueInto S _ _ | valueSize S _
  | deserializeValue S _ | deserializeValueFrom S _ =>
    exact (guarded_codecOfSchema enlists S).weaken
  | deserializeNamed typeName _ => exact guarded_codecOfName enlists typeName

theorem guarded_after (bySchema : ∀ op ∈ ops, op.BySchema (.record id args))
    (h : Guarded C (.record id args) ext.schema declared e) :
    Guarded C (.record id args) ext.schema declared (after ops e) :=
  after_preserves h fun op hop => guarded_preserves enlists accepted (bySchema op hop)

end Run

/-! ## Reading -/

/-- There is a value, or the data are at fault. -/
def Answers {α : Type} (outcome : Except Error α) : Prop :=
  (∃ x, outcome = .ok x) ∨ ∃ error, outcome = .error error ∧ error.OfData

/-- The name is declared to be that of the description, and resolves to it. -/
structure Binds (e : Engine) (name : String) (d : Descriptor) : Prop where
  declared : e.registry.declared.get? name = some d
  resolved : ∀ d', e.registry.resolved.get? name = some d' → d' = d
  result : (resolve name e).result = .ok d

theorem Guarded.binds {schema : Schema} (enlists : C.Enlists {t} declared)
    (h : Guarded C t schema declared e) {name : String} {d : Descriptor}
    (listed : declared.get? name = some d) : e.Binds name d where
  declared := h.registry.declared_eq ▸ listed
  resolved := fun d' found => (h.registry.resolved name d' found).same d listed
  result := by
    have ends : (resolve name).Ends e (fun d' _ => d' = d) fun _ _ => False := by
      apply (guarded_resolving (Registry.guarded_resolve enlists name) e h).mono
      · exact fun d' _ done => done.2.same d listed
      · rintro _ _ ⟨-, missing⟩
        cases missing.symm.trans listed
    obtain ⟨_, result, rfl⟩ := ends.result
    exact result

theorem ends_decode {c : Codec} (conforms : C.Conforms c.plan t) (bytes : List UInt8) :
    (ofStateful c.decode).Ends (.ofBytes bytes) (fun v _ => ∃ x, C.ofValue v t = .ok x)
      fun err _ => err.OfData := by
  rw [ends_ofStateful, Codec.decode]
  rcases conforms.decode bytes with ⟨v, s, x, decoded, made⟩ | ⟨err, s, failed, ofData⟩
  · rw [decoded]
    exact ⟨x, made⟩
  · rw [failed]
    exact ofData

/-- What is read by a schema that is compiled under the name of the record is an instance. -/
theorem Guarded.answers_deserializeValue {schema : Schema}
    (enlists : C.Enlists {.record id args} declared)
    (h : Guarded C (.record id args) schema declared e)
    (named : S.typeName = (MessageType.record id args).name) {c : Codec}
    (compiled : (codecOfSchema S e).result = .ok c) (bytes : List UInt8) :
    Answers ((deserializeValue S bytes e).result >>= fun v => C.ofValue v (.record id args)) := by
  have conforms := ((guarded_codecOfSchema enlists S e h).of_ok compiled).2 id args
    (.of_mem (Set.mem_singleton _)) named.symm
  have ends : (deserializeValue S bytes).Ends e
      (fun v _ => ∃ x, C.ofValue v (.record id args) = .ok x) fun err _ => err.OfData := by
    rw [deserializeValue, ends_supplied, deserializeValueFrom, ends_bind, first, ends_within]
    apply ends_of_ok compiled
    rw [second, ends_within]
    exact ends_decode conforms bytes
  cases result : (deserializeValue S bytes e).result with
  | ok v => exact .inl (ends.of_ok result)
  | error err => exact .inr ⟨err, rfl, ends.of_error result⟩

theorem Guarded.answers_deserialize (enlists : C.Enlists {.record id args} declared)
    (accepted : Extraction.ofDescriptor C (.declared id args) = .ok ext)
    (h : Guarded C (.record id args) ext.schema declared e) (bytes : List UInt8) :
    Answers (deserialize (.record id args) bytes e).result := by
  have ends : (deserialize (.record id args) bytes).Ends e (fun _ _ => True)
      fun err _ => err.OfData := by
    rw [deserialize, ends_supplied, deserializeFrom, ends_bind, first, ends_within]
    apply (guarded_codecOf enlists accepted e h).mono
    · rintro c e' ⟨h', conforms⟩
      rw [ends_bind, second, ends_within]
      apply (ends_decode conforms bytes).mono
      · rintro v s ⟨x, made⟩
        rw [ends_bind, ends_get, h'.catalog_eq, made]
        trivial
      · exact fun _ _ ofData => ofData
    · exact fun _ _ no => no.2.elim
  cases result : (deserialize (.record id args) bytes e).result with
  | ok x => exact .inl ⟨x, rfl⟩
  | error err => exact .inr ⟨err, rfl, ends.of_error result⟩

/-- In an engine that was told of a record type first, the names of all its records stay bound to
what the program declares, whatever schemas and names the engine is given afterwards. If a schema
under the name of the record is compiled then, what is read by it is an instance of the type or the
bytes are at fault, and so is what is read as the type itself. -/
theorem catches_drift (limits : Limits) (consistent : C.Consistent {.record id args})
    (accepted : Extraction.ofDescriptor C (.declared id args) = .ok ext)
    (bySchema : ∀ op ∈ ops, op.BySchema (.record id args)) :
    (register (.record id args) (fresh C limits)).result = .ok () ∧
    (∀ id' args', C.Occurs {.record id args} (.record id' args') → ∃ d,
      C.DeclaredAs {.record id args} (MessageType.record id' args').name d ∧
      (after [.register (.record id args)] (fresh C limits)).Binds
        (MessageType.record id' args').name d ∧
      (after (.register (.record id args) :: ops) (fresh C limits)).Binds
        (MessageType.record id' args').name d) ∧
    (∀ S c, S.typeName = (MessageType.record id args).name →
      (codecOfSchema S (after (.register (.record id args) :: ops) (fresh C limits))).result =
        .ok c → ∀ bytes, Answers ((deserializeValue S bytes
          (after (.register (.record id args) :: ops) (fresh C limits))).result >>=
            fun v => C.ofValue v (.record id args))) ∧
    ∀ bytes, Answers (deserialize (.record id args) bytes
      (after (.register (.record id args) :: ops) (fresh C limits))).result := by
  obtain ⟨_, registered, enlists, start⟩ :=
    (ends_register_guarded limits consistent accepted).result
  have guarded := guarded_after enlists accepted bySchema start
  refine ⟨registered, fun id' args' occurs => ?_, fun S c named compiled bytes => ?_, ?_⟩
  · obtain ⟨d, listed⟩ := enlists.complete id' args' occurs
    exact ⟨d, enlists.sound _ _ listed, start.binds enlists listed, guarded.binds enlists listed⟩
  · exact guarded.answers_deserializeValue enlists named compiled bytes
  · exact guarded.answers_deserialize enlists accepted

def stump : Schema :=
  ⟨"Line", Fingerprint.ofString "Line", [.mk none "Dot" [], .mk none "Line" [.member "from" "Dot"]]⟩

/-- Lines are read by a schema that leaves members out, after a dot was said to have others. -/
theorem catches_drift_line : ∃ c,
    (codecOfSchema stump (after [.register Extraction.line,
      .resolveNode (.mk none "Dot" [.member "x" "String"])]
        (fresh Extraction.lines .standard))).result = .ok c ∧
    ∀ bytes, Answers ((deserializeValue stump bytes (after [.register Extraction.line,
      .resolveNode (.mk none "Dot" [.member "x" "String"])]
        (fresh Extraction.lines .standard))).result >>=
          fun v => Extraction.lines.ofValue v Extraction.line) := by
  have bySchema : ∀ op ∈ [Operation.resolveNode (.mk none "Dot" [.member "x" "String"])],
      op.BySchema Extraction.line := by simp [Operation.BySchema]
  have compiled : (codecOfSchema stump (after [.register Extraction.line,
      .resolveNode (.mk none "Dot" [.member "x" "String"])]
        (fresh Extraction.lines .standard))).result.isOk = true := by decide +kernel
  obtain ⟨-, -, values, -⟩ := catches_drift .standard consistent_line rfl bySchema
  cases result : (codecOfSchema stump (after [.register Extraction.line,
      .resolveNode (.mk none "Dot" [.member "x" "String"])]
        (fresh Extraction.lines .standard))).result with
  | ok c => exact ⟨c, rfl, values stump c rfl result⟩
  | error err =>
    rw [result] at compiled
    cases compiled

end Engine

end SchemaCodec
