import SchemaCodec.Proofs.Engine.RoundTrip
import SchemaCodec.Proofs.Engine.StaticTypes

/-! # Reading instances back

In an engine that has only been given types of a consistent set, every instance of an accepted type
is written, and it is read back whatever the engine was given before and in between.
-/

namespace SchemaCodec.Engine

open SchemaCodec.Action

variable {C : Catalog} {limits : Limits} {types : Set MessageType} {held : String → Codec → Prop}
  {t : MessageType} {x : Instance} {e : Engine} {ops : List Operation}

def Operation.Concerns (types : Set MessageType) : Operation → Prop
  | schemaOf t => t ∈ types
  | extract d => ∃ t ∈ types, d = t.describe
  | register t => t ∈ types
  | codecOf t => t ∈ types
  | serialize t _ => t ∈ types
  | serializeInto t _ _ => t ∈ types
  | serializeAt t _ _ _ => t ∈ types
  | messageSize t _ => t ∈ types
  | deserialize t _ => t ∈ types
  | deserializeFrom t _ => t ∈ types
  | _ => False

/-! ## Runs -/

theorem serves_schemaOf (consistent : C.Consistent types) (mem : t ∈ types) :
    (schemaOf t).Keeps (Serves C C limits types held) (fun _ => True) fun _ => True := by
  intro e h
  exact (ends_schemaOf consistent (.of_mem mem) h).mono (fun _ _ done => ⟨done.1, trivial⟩)
    fun _ _ failed => ⟨failed.1, trivial⟩

theorem serves_codecOf (consistent : C.Consistent types) (mem : t ∈ types) :
    (codecOf t).Keeps (Serves C C limits types held) (fun _ => True) fun _ => True := by
  intro e h
  exact (ends_codecOf consistent (.of_mem mem) h).mono (fun _ _ done => ⟨done.1, trivial⟩)
    fun _ _ failed => ⟨failed.1, trivial⟩

theorem serves_preserves (consistent : C.Consistent types) {op : Operation}
    (concerns : op.Concerns types) : op.Preserves (Serves C C limits types held) := by
  cases op with
  | schemaOf t | register t => exact serves_schemaOf consistent concerns
  | extract d =>
    obtain ⟨t, mem, rfl⟩ := concerns
    have depicts := Catalog.depicts_describe (C := C) (.of_mem mem)
    exact (serves_extract consistent (.of_mem mem) depicts).weaken
  | codecOf t | serialize t _ | serializeInto t _ _ | serializeAt t _ _ _ | messageSize t _
  | deserialize t _ | deserializeFrom t _ => exact serves_codecOf consistent concerns
  | _ => exact concerns.elim

theorem serves_after (consistent : C.Consistent types)
    (concerns : ∀ op ∈ ops, op.Concerns types) (h : Serves C C limits types held e) :
    Serves C C limits types held (after ops e) :=
  after_preserves h fun op hop => serves_preserves consistent (concerns op hop)

/-! ## Round trips -/

theorem Serves.hold (h : Serves C C limits types held e) {name : String} {c : Codec}
    (found : e.compiled.get? name = some c) :
    Serves C C limits types (fun name' c' => name' = name ∧ c' = c) e where
  catalog_eq := h.catalog_eq
  limits_eq := h.limits_eq
  registry := h.registry
  schemas := h.schemas
  compiled := h.compiled
  held := by
    rintro _ _ ⟨rfl, rfl⟩
    exact found

/-- An instance of an accepted type is written by a sound coding that fits the type and is held from
then on, and through which the instance returns. -/
theorem ends_serialize_sound {N : Node → Prop} {limits' : Limits}
    (ordered : ∀ node : Node, node.Ordered → N node) (consistent : C.Consistent types)
    (occurs : C.Occurs types t) (accepts : C.Accepts t) (admits : C.Admits limits' x t)
    (h : Serves C C limits types held e) (sound : Sound N limits e) :
    (serialize t x).Ends e
      (fun bytes e' => Serves C C limits types held e' ∧ ∃ c v, e'.compiled.get? t.name = some c ∧
        c.Sound N limits ∧ C.Fits c.plan t ∧ c.Writes v bytes ∧ C.Returns limits' c.plan t x v)
      fun _ _ => False := by
  rw [serialize, ends_bind, prepare, ends_bind]
  refine ((ends_codecOf consistent occurs h).and (sound_codecOf ordered t e sound)).mono ?_ ?_
  · rintro c e' ⟨⟨h', found, fits, -⟩, -, codec_sound⟩
    obtain ⟨v, returns⟩ := Catalog.exists_returns fits codec_sound.coherent admits
    obtain ⟨bytes, yields⟩ := returns.2.2.1
    have written : c.Writes v bytes := Codec.writes_iff.mpr yields
    rw [ends_bind, ends_get, ends_bind, h'.catalog_eq, returns.1]
    refine ends_ofExcept.mpr ⟨?_, fun _ no => nomatch no⟩
    rintro _ ⟨⟩
    rw [ends_pure]
    dsimp only
    rw [Codec.toBytes_eq_ok.mpr written]
    exact ⟨h', c, v, found, codec_sound, fits, written, returns⟩
  · rintro err e' ⟨⟨-, refused⟩, -⟩
    exact accepts.ne_error refused

theorem ends_serialize (consistent : C.Consistent types) (mem : t ∈ types) (accepts : C.Accepts t)
    (admits : C.Admits limits x t) (h : Serves C C limits types held e)
    (sound : Sound (fun _ => True) limits e) :
    (serialize t x).Ends e
      (fun bytes e' => Serves C C limits types held e' ∧ ∃ c v, e'.compiled.get? t.name = some c ∧
        c.limits = limits ∧ c.Writes v bytes ∧ C.Returns limits c.plan t x v)
      fun _ _ => False := by
  refine (ends_serialize_sound (fun _ _ => trivial) consistent (.of_mem mem) accepts admits h
    sound).mono ?_ fun _ _ no => no
  rintro bytes e' ⟨h', c, v, found, codec_sound, -, written, returns⟩
  exact ⟨h', c, v, found, codec_sound.limits_eq, written, returns⟩

theorem ends_deserialize (consistent : C.Consistent types) (mem : t ∈ types) (accepts : C.Accepts t)
    {c : Codec} {v : Value} {bytes : List UInt8} (bound : c.limits = limits)
    (written : c.Writes v bytes) (returns : C.Returns limits c.plan t x v)
    (h : Serves C C limits types (fun name' c' => name' = t.name ∧ c' = c) e) (rest : List UInt8) :
    (deserialize t (bytes ++ rest)).Ends e (fun y _ => y = C.restore x t) fun _ _ => False := by
  rw [deserialize, ends_supplied, deserializeFrom, ends_bind, first, ends_within]
  refine (ends_codecOf consistent (.of_mem mem) h).mono ?_
    fun _ _ failed => accepts.ne_error failed.2
  rintro c' e' ⟨h', found, -⟩
  obtain rfl := Option.some.inj (found.symm.trans (h'.held t.name c ⟨rfl, rfl⟩))
  obtain ⟨-, within, -, read⟩ := returns
  have decoded := Codec.decode_of_writes written (bound ▸ within) rest
  rw [ends_bind, second, ends_within, ends_ofStateful]
  dsimp only
  rw [decoded]
  dsimp only
  rw [ends_bind, ends_get, h'.catalog_eq, read]
  rfl

/-- After any calls about types of a consistent set, an instance of an accepted type is written, and
after any further calls about such types it is read back from its bytes, whatever follows them;
fields that are never serialized come back with their initial values. -/
theorem static_round_trip (consistent : C.Consistent types)
    (concerns : ∀ op ∈ ops, op.Concerns types) (mem : t ∈ types) (accepts : C.Accepts t)
    (admits : C.Admits limits x t) :
    ∃ bytes, (serialize t x (after ops (fresh C limits))).result = .ok bytes ∧
      ∀ later, (∀ op ∈ later, op.Concerns types) → ∀ rest,
        (deserialize t (bytes ++ rest)
          (after (ops ++ .serialize t x :: later) (fresh C limits))).result =
            .ok (C.restore x t) := by
  have serves := serves_after consistent concerns (serves_fresh C limits types)
  have sound : Sound (fun _ => True) limits (after ops (fresh C limits)) := Reachable.sound ⟨ops, rfl⟩
  obtain ⟨bytes, ok, serves', c, v, found, bound, written, returns⟩ :=
    (ends_serialize consistent mem accepts admits serves sound).result
  refine ⟨bytes, ok, fun later concerns' rest => ?_⟩
  have holds := serves_after consistent concerns' (serves'.hold found)
  have state_eq : after (ops ++ .serialize t x :: later) (fresh C limits) =
      after later (serialize t x (after ops (fresh C limits))).state := by
    rw [after, List.foldl_append, List.foldl_cons]
    rfl
  rw [state_eq]
  obtain ⟨y, read, rfl⟩ :=
    (ends_deserialize consistent mem accepts bound written returns holds rest).result
  exact read

def points : Catalog where
  declaration := fun _ =>
    ⟨[⟨"x", .scalar .int8, fun _ => .scalar .int8 0, false⟩,
      ⟨"label", .string, fun _ => .text "none", true⟩], true, .declared⟩
  capacity := 1

def point : MessageType := .record ⟨"Point", "Point", 0⟩ []

theorem occurs_points {t : MessageType}
    (h : points.Occurs {.sequence .vector point, .sequence .deque point} t) :
    (∃ storage, t = .sequence storage point) ∨ t = point ∨ t = .scalar .int8 := by
  induction h with
  | of_mem mem =>
    rcases mem with rfl | rfl
    · exact .inl ⟨_, rfl⟩
    · exact .inl ⟨_, rfl⟩
  | element _ ih =>
    rcases ih with ⟨storage, same⟩ | no | no
    · obtain ⟨rfl, rfl⟩ := MessageType.sequence.inj same
      exact .inr (.inl rfl)
    · cases no
    · cases no
  | member _ mem ih =>
    rcases ih with ⟨storage, no⟩ | same | no
    · cases no
    · obtain ⟨rfl, rfl⟩ := MessageType.record.inj same
      have only := List.mem_singleton.mp mem
      exact .inr (.inr (Prod.mk.inj only).2)
    · cases no

theorem consistent_points :
    points.Consistent {.sequence .vector point, .sequence .deque point} := by
  have only : ∀ id args,
      points.Occurs {.sequence .vector point, .sequence .deque point} (.record id args) →
        id = ⟨"Point", "Point", 0⟩ ∧ args = [] := by
    intro id args occurs
    rcases occurs_points occurs with ⟨storage, no⟩ | same | no
    · cases no
    · exact MessageType.record.inj same
    · cases no
  refine Catalog.consistent_of_declarations ?_ ?_ ?_
  · intro id args occurs
    obtain ⟨rfl, rfl⟩ := only id args occurs
    exact ⟨TypeName.atomic_of_unbracketed (by decide), by decide⟩
  · intro id args _ no
    cases no
  · intro id args id' args' occurs occurs' _
    obtain ⟨rfl, rfl⟩ := only id args occurs
    obtain ⟨rfl, rfl⟩ := only id' args' occurs'
    exact ⟨rfl, .nil⟩

theorem accepts_points : points.Accepts (.sequence .vector point) := ⟨_, rfl⟩

theorem admits_points : points.Admits .standard (.items [.record [.scalar .int8 7, .text "old"]])
    (.sequence .vector point) := by
  refine .items (by decide) (by decide) fun x hx => ?_
  obtain rfl := List.mem_singleton.mp hx
  refine .record rfl fun p hp kept => ?_
  rcases List.mem_cons.mp hp with rfl | hp
  · exact .scalar .int8 7
  · obtain rfl := List.mem_singleton.mp hp
    cases kept

/-- A vector of points returns through the coding of a deque of points, without the labels. -/
theorem static_round_trip_points : ∃ bytes,
    (serialize (.sequence .vector point) (.items [.record [.scalar .int8 7, .text "old"]])
      (after [.codecOf (.sequence .deque point)] (fresh points .standard))).result = .ok bytes ∧
    (deserialize (.sequence .vector point) (bytes ++ [9])
      (after [.codecOf (.sequence .deque point), .serialize (.sequence .vector point)
        (.items [.record [.scalar .int8 7, .text "old"]]),
        .deserialize (.sequence .deque point) []] (fresh points .standard))).result =
      .ok (.items [.record [.scalar .int8 7, .text "none"]]) := by
  have concerns : ∀ op ∈ [Operation.codecOf (.sequence .deque point)],
      op.Concerns {.sequence .vector point, .sequence .deque point} := by
    intro op hop
    obtain rfl := List.mem_singleton.mp hop
    exact .inr rfl
  have later : ∀ op ∈ [Operation.deserialize (.sequence .deque point) []],
      op.Concerns {.sequence .vector point, .sequence .deque point} := by
    intro op hop
    obtain rfl := List.mem_singleton.mp hop
    exact .inr rfl
  obtain ⟨bytes, ok, read⟩ :=
    static_round_trip consistent_points concerns (.inl rfl) accepts_points admits_points
  exact ⟨bytes, ok, read _ later [9]⟩

end SchemaCodec.Engine
