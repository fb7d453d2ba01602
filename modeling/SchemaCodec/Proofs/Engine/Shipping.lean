import SchemaCodec.Proofs.Engine.HistoryIndependence
import SchemaCodec.Proofs.Engine.SchemaCompilation
import SchemaCodec.Proofs.Schema.Arrangement

/-! # Sending schemas

The bytes of an instance are understood by an engine that knows no types when the schema of the type
is sent along. The receiver makes the types from the schema; it is stopped by records without
members, of which a schema says too little.
-/

namespace SchemaCodec.Engine

open SchemaCodec.Action

variable {C K : Catalog} {limits limits' : Limits} {types : Set MessageType} {t : MessageType}
  {x : Instance} {ext : Extraction} {S : Schema} {c : Codec} {v : Value} {bytes : List UInt8}
  {e : Engine} {ops ops' : List Operation}

/-! ## The sender -/

theorem Settled.exists_schema (consistent : C.Consistent types) (occurs : C.Occurs types t)
    (accepts : C.Accepts t) (h : Settled C limits types e) :
    ∃ ext, Extraction.ofDescriptor C t.describe = .ok ext ∧
      (schemaOf t e).result = .ok ext.schema := by
  obtain ⟨_, extracted, -, ext, accepted, rfl, -⟩ :=
    ((ends_schemaOf consistent occurs h.serves).mono (fun _ _ done => done)
      fun _ _ refused => accepts.ne_error refused.2).result
  exact ⟨ext, accepted, extracted⟩

/-! ## The receiver -/

/-- The coding is held for the schema of the type. It fits the type, and all of its members are in
the order of their names. -/
structure Received (C : Catalog) (limits : Limits) (t : MessageType) (S : Schema) (c : Codec)
    (e : Engine) : Prop where
  holds : Holds S limits c e
  fits : C.Fits c.plan t
  sound : c.Sound Node.Ordered limits

theorem arranged_of_accepted (consistent : C.Consistent types) (occurs : C.Occurs types t)
    (accepted : Extraction.ofDescriptor C t.describe = .ok ext) : ext.schema.Arranged := by
  refine Extraction.arranged_schema accepted fun r hr => ?_
  obtain ⟨⟨id, args, rfl, occurs'⟩, -⟩ := (Catalog.closed_of_accepted occurs accepted).1 r hr
  exact consistent.wellFormed id args occurs'

theorem ends_codecOfSchema_received (consistent : C.Consistent types) (occurs : C.Occurs types t)
    (accepted : Extraction.ofDescriptor C t.describe = .ok ext)
    (inhabited : ∀ node ∈ ext.schema.types, node.children ≠ []) :
    (codecOfSchema ext.schema).Ends (fresh K limits)
      (Received C limits t ext.schema) fun _ _ => False := by
  have wellFormed : ext.schema.WellFormed :=
    (arranged_of_accepted consistent occurs accepted).wellFormed_of_inhabited inhabited
  have outlines := Catalog.outlines_extracted consistent occurs
    (Catalog.depicts_describe occurs) accepted
  have suits := serves_codecOfSchema consistent outlines (fresh K limits)
    (serves_fresh C limits types)
  have sound := sound_codecOfSchema (fun _ ordered => ordered) (Extraction.ordered_types accepted)
    (fresh K limits) (sound_fresh Node.Ordered K limits)
  refine (((ends_codecOfSchema K limits wellFormed).and suits).and sound).mono ?_
    fun _ _ failed => failed.1.1
  rintro c e ⟨⟨holds, -, -, fits⟩, -, codec_sound⟩
  exact ⟨holds, fits, codec_sound⟩

theorem ends_deserializeValue {Q : Value → Engine → Prop} {R : Error → Engine → Prop}
    (h : (codecOfSchema S).Ends e
      (fun c e' => ∃ v source, c.decode (.ofBytes bytes) = .ok v source ∧ Q v e') R) :
    (deserializeValue S bytes).Ends e Q R := by
  rw [deserializeValue, ends_supplied, deserializeValueFrom, ends_bind, first, ends_within]
  refine h.mono ?_ fun _ _ failed => failed
  rintro c e' ⟨v, source, decoded, hv⟩
  rw [second, ends_within, ends_ofStateful]
  dsimp only
  rw [decoded]
  exact hv

theorem ends_serializeValue {Q : List UInt8 → Engine → Prop} {R : Error → Engine → Prop}
    (held : e.compiled.get? S.typeName = some c) (written : c.Writes v bytes)
    (done : ∀ counters, Q bytes { e with counters := counters }) :
    (serializeValue S v).Ends e Q R := by
  rw [serializeValue, codecOfSchema, ends_bind, ends_bind, ends_get, held]
  dsimp only
  rw [ends_bind, ends_count, ends_pure, Codec.toBytes_eq_ok.mpr written]
  exact done _

/-- If all listed records have members, the receiver reads the instance, makes a type for each of
the records, and can send the value back. -/
theorem ends_deserializeValue_received {c' : Codec} (consistent : C.Consistent types)
    (occurs : C.Occurs types t) (accepted : Extraction.ofDescriptor C t.describe = .ok ext)
    (inhabited : ∀ node ∈ ext.schema.types, node.children ≠ []) (admits : C.Admits limits x t)
    (fits : C.Fits c'.plan t) (ordered : c'.plan.CompiledFrom Node.Ordered)
    (converted : C.toValue x t = .ok v) (written : c'.Writes v bytes) :
    (deserializeValue ext.schema bytes).Ends (fresh K limits)
      (fun w e => C.ofValue w t = .ok (C.restore x t) ∧
        e.stats.synthesized = ext.schema.types.length ∧
        (serializeValue ext.schema w e).result = .ok bytes)
      fun _ _ => False := by
  refine ends_deserializeValue ?_
  refine (ends_codecOfSchema_received consistent occurs accepted inhabited).mono ?_
    fun _ _ no => no
  intro c e received
  obtain ⟨w, source, decoded, read, again⟩ :=
    received.sound.exists_decoded received.fits admits fits ordered converted written
  refine ⟨w, source, decoded, read, received.holds.synthesized, ?_⟩
  obtain ⟨_, result, rfl⟩ : ∃ b, (serializeValue ext.schema w e).result = .ok b ∧ b = bytes :=
    (ends_serializeValue (Q := fun b _ => b = bytes) received.holds.held again fun _ => rfl).result
  exact result

theorem ends_deserializeValue_childless (consistent : C.Consistent types)
    (occurs : C.Occurs types t) (accepted : Extraction.ofDescriptor C t.describe = .ok ext)
    (childless : ¬ ∀ node ∈ ext.schema.types, node.children ≠ []) :
    (deserializeValue ext.schema bytes).Ends (fresh K limits) (fun _ _ => False)
      fun err _ => ∃ node, ext.schema.types.find? (·.children.isEmpty) = some node ∧
        err = .typeNotFound node.typeName := by
  cases first : ext.schema.types.find? (·.children.isEmpty) with
  | none =>
    refine absurd (fun node mem empty => ?_) childless
    exact List.find?_eq_none.mp first node mem (List.isEmpty_iff.mpr empty)
  | some node =>
    have arranged := arranged_of_accepted consistent occurs accepted
    exact ends_deserializeValue ((ends_codecOfSchema_childless K limits arranged first).mono
      (fun _ _ no => no.elim) fun _ _ failed => ⟨node, rfl, failed⟩)

/-! ## The theorem -/

/-- An instance of an accepted type is sent as its bytes with the schema of the type, which is found
back in its document. To read the bytes by the schema, an engine that has done nothing yet needs
every listed record to have members. What it reads is the instance, apart from fields that are never
serialized, and the bytes of that are the same again; one type was made for each listed record.
Otherwise the first record without members is missing. -/
theorem schema_shipping (consistent : C.Consistent types) (uses : ∀ op ∈ ops, op.Uses C types)
    (uses' : ∀ op ∈ ops', op.Uses C types) (mem : t ∈ types) (accepts : C.Accepts t)
    (admits : C.Admits limits' x t) :
    ∃ S bytes, (schemaOf t (after ops (fresh C limits))).result = .ok S ∧
      (∀ layout ∈ [Json.Layout.compact, .pretty],
        Schema.ofDocument (S.document layout) = .ok S) ∧
      (serialize t x (after ops' (fresh C limits))).result = .ok bytes ∧
      ((∃ w, (deserializeValue S bytes (fresh K limits')).result = .ok w) ↔
        ∀ node ∈ S.types, node.children ≠ []) ∧
      (∀ w, (deserializeValue S bytes (fresh K limits')).result = .ok w →
        C.ofValue w t = .ok (C.restore x t) ∧
        (deserializeValue S bytes (fresh K limits')).state.stats.synthesized = S.types.length ∧
        (serializeValue S w (deserializeValue S bytes (fresh K limits')).state).result =
          .ok bytes) ∧
      ∀ err, (deserializeValue S bytes (fresh K limits')).result = .error err →
        ∃ node, S.types.find? (·.children.isEmpty) = some node ∧
          err = .typeNotFound node.typeName := by
  have occurs : C.Occurs {t | C.Spans types t} t := .of_mem (.occurs (.of_mem mem))
  obtain ⟨ext, accepted, extracted⟩ :=
    (settled_after limits consistent uses).exists_schema consistent.spans occurs accepts
  have settled := settled_after limits consistent uses'
  obtain ⟨bytes, serialized, -, c', v, -, sound, fits, written, returns⟩ :=
    (ends_serialize_sound (fun _ ordered => ordered) consistent.spans occurs accepts admits
      settled.serves settled.sound).result
  refine ⟨ext.schema, bytes, extracted, ?_, serialized, ?_⟩
  · exact fun layout mem => Extraction.ofDocument_extracted accepted (Json.spaced_of_mem mem)
  · exact ends_decided
      (fun inhabited => ends_deserializeValue_received consistent.spans occurs accepted inhabited
        admits fits sound.compiledFrom returns.1 written)
      (ends_deserializeValue_childless consistent.spans occurs accepted)

/-- A vector of points is read by an engine of another program, without the labels. -/
theorem schema_shipping_points : ∃ S bytes w,
    (schemaOf (.sequence .vector point) (fresh points .standard)).result = .ok S ∧
    (serialize (.sequence .vector point) (.items [.record [.scalar .int8 7, .text "old"]])
      (after [.codecOf (.sequence .deque point)] (fresh points .standard))).result = .ok bytes ∧
    (deserializeValue S bytes
      (fresh ⟨fun _ => ⟨[], true, .declared⟩, 0⟩ .standard)).result = .ok w ∧
    points.ofValue w (.sequence .vector point) =
      .ok (.items [.record [.scalar .int8 7, .text "none"]]) := by
  have uses : ∀ op ∈ [Operation.codecOf (.sequence .deque point)],
      op.Uses points {.sequence .vector point, .sequence .deque point} := by
    intro op hop
    obtain rfl := List.mem_singleton.mp hop
    exact .inr rfl
  have none_used : ∀ op ∈ ([] : List Operation),
      op.Uses points {.sequence .vector point, .sequence .deque point} := fun _ no => nomatch no
  obtain ⟨S, bytes, extracted, -, serialized, reads, received, -⟩ :=
    schema_shipping (K := ⟨fun _ => ⟨[], true, .declared⟩, 0⟩) consistent_points none_used uses
      (.inl rfl) accepts_points admits_points
  have listed : ((schemaOf (.sequence .vector point) (fresh points .standard)).result.toOption.map
      fun S => S.types.all (!·.children.isEmpty)) = some true := by
    decide +kernel
  rw [show fresh points .standard = after [] (fresh points .standard) from rfl, extracted] at listed
  obtain ⟨w, read⟩ := reads.mpr fun node mem empty => by
    have inhabited := List.all_eq_true.mp (Option.some.inj listed) node mem
    rw [empty] at inhabited
    cases inhabited
  exact ⟨S, bytes, w, extracted, serialized, read, (received w read).1⟩

end SchemaCodec.Engine
