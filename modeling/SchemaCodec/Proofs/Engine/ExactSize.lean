import SchemaCodec.Proofs.Engine.Coherence

/-! # Serializing into buffers of exact size

Writing into a buffer of the exact size ends as writing into growing memory does. So serializing
yields exactly what encoding writes, fills its buffer, and never fails for want of room.
-/

namespace SchemaCodec

namespace Codec

variable {c : Codec} {v : Value} {bytes : List UInt8} {err : Error} {n : Nat}

/-- Growing memory ends up with the given bytes of the value. -/
def Writes (c : Codec) (v : Value) (bytes : List UInt8) : Prop :=
  ∃ sink, c.encode v .empty = .ok () sink ∧ sink.written = bytes

/-- Encoding the value into growing memory fails with the given error. -/
def Refuses (c : Codec) (v : Value) (err : Error) : Prop :=
  ∃ sink, c.encode v .empty = .error err sink

/-- Encoding into a buffer ends as encoding into growing memory does: with the same bytes, which
fill the buffer, or with the same error. -/
def SameOutcome (c : Codec) (v : Value) (buffer : List UInt8) : Prop :=
  (∀ bytes, c.Writes v bytes ↔
    ∃ sink, c.encode v (.ofBuffer buffer) = .ok () sink ∧ sink.written = bytes ∧
      sink.room = []) ∧
  ∀ err, c.Refuses v err ↔ ∃ sink, c.encode v (.ofBuffer buffer) = .error err sink

theorem writes_iff : c.Writes v bytes ↔ (c.plan.emit v).Yields bytes := by
  have run : c.encode v .empty = _ := Emission.writeTo_growing (c.plan.emit v) []
  rw [Writes, run]
  cases h : (c.plan.emit v).failure with
  | none =>
    constructor
    · rintro ⟨_, ⟨⟩, rfl⟩
      exact ⟨h, by simp [Sink.written]⟩
    · rintro ⟨-, rfl⟩
      exact ⟨_, rfl, by simp [Sink.written]⟩
  | some err =>
    constructor
    · rintro ⟨_, failed, -⟩
      cases failed
    · rintro ⟨clean, -⟩
      cases h.symm.trans clean

theorem refuses_iff : c.Refuses v err ↔ (c.plan.emit v).failure = some err := by
  have run : c.encode v .empty = _ := Emission.writeTo_growing (c.plan.emit v) []
  rw [Refuses, run]
  cases h : (c.plan.emit v).failure with
  | none =>
    constructor
    · rintro ⟨_, ended⟩
      cases ended
    · rintro ⟨⟩
  | some other =>
    constructor
    · rintro ⟨_, ⟨⟩⟩
      rfl
    · rintro ⟨⟩
      exact ⟨_, rfl⟩

theorem exactSize_of_writes (h : c.Writes v bytes) : c.exactSize v = .ok bytes.length :=
  Plan.exactSize_of_yields (writes_iff.mp h)

theorem encode_fits {room : List UInt8} (h : c.Writes v bytes)
    (fits : bytes.length ≤ room.length) :
    c.encode v (.ofBuffer room) = .ok () (.window bytes.reverse (room.drop bytes.length)) := by
  obtain ⟨clean, rfl⟩ := writes_iff.mp h
  have run : c.encode v (.ofBuffer room) = _ := Emission.writeTo_window fits []
  rw [run, clean]
  simp

theorem encode_exact (h : c.Writes v bytes) :
    c.encode v (.ofBuffer (List.replicate bytes.length 0)) =
      .ok () (.window bytes.reverse []) := by
  rw [encode_fits h (Nat.le_of_eq List.length_replicate.symm), List.drop_replicate, Nat.sub_self,
    List.replicate_zero]

theorem encode_refused (size : c.exactSize v = .ok n) (h : c.Refuses v err) :
    ∃ sink, c.encode v (.ofBuffer (List.replicate n 0)) = .error err sink := by
  have fits : (c.plan.emit v).Fits n := Plan.fits_emit size
  have run : c.encode v (.ofBuffer (List.replicate n 0)) = _ :=
    Emission.writeTo_window (e := c.plan.emit v) (by rw [List.length_replicate]; exact fits.1) []
  rw [run, refuses_iff.mp h]
  exact ⟨_, rfl⟩

theorem writes_or_refuses (c : Codec) (v : Value) :
    (∃ bytes, c.Writes v bytes) ∨ ∃ err, c.Refuses v err := by
  cases h : c.encode v .empty with
  | ok x sink => exact .inl ⟨sink.written, sink, h, rfl⟩
  | error err sink => exact .inr ⟨err, sink, h⟩

theorem sameOutcome (size : c.exactSize v = .ok n) : c.SameOutcome v (List.replicate n 0) := by
  rcases writes_or_refuses c v with ⟨bytes, written⟩ | ⟨err, refused⟩
  · have length : bytes.length = n := Except.ok.inj ((exactSize_of_writes written).symm.trans size)
    have filled := encode_exact written
    rw [length] at filled
    constructor
    · intro other
      constructor
      · rintro ⟨sink, encoded, rfl⟩
        obtain ⟨sink', encoded', rfl⟩ := written
        obtain rfl := (EStateM.Result.ok.inj (encoded.symm.trans encoded')).2
        exact ⟨_, filled, by simp [Sink.written], rfl⟩
      · rintro ⟨_, encoded, rfl, -⟩
        obtain ⟨-, rfl⟩ := EStateM.Result.ok.inj (filled.symm.trans encoded)
        simpa [Sink.written] using written
    · intro err
      constructor
      · rintro ⟨_, failed⟩
        obtain ⟨_, encoded, -⟩ := written
        cases encoded.symm.trans failed
      · rintro ⟨_, failed⟩
        cases filled.symm.trans failed
  · obtain ⟨sink, failed⟩ := encode_refused size refused
    constructor
    · intro bytes
      constructor
      · rintro ⟨_, encoded, -⟩
        obtain ⟨_, refused⟩ := refused
        cases encoded.symm.trans refused
      · rintro ⟨_, encoded, -⟩
        cases failed.symm.trans encoded
    · intro other
      constructor
      · rintro ⟨_, refused'⟩
        obtain ⟨_, refused⟩ := refused
        obtain ⟨rfl, -⟩ := EStateM.Result.error.inj (refused.symm.trans refused')
        exact ⟨_, failed⟩
      · rintro ⟨_, failed'⟩
        obtain ⟨rfl, -⟩ := EStateM.Result.error.inj (failed.symm.trans failed')
        exact refused

/-- The bytes written into a buffer of exact size are those that growing memory ends up with. -/
theorem toBytes_eq_ok : c.toBytes v = .ok bytes ↔ c.Writes v bytes := by
  unfold toBytes
  rw [bind_eq_ok]
  constructor
  · rintro ⟨n, size, h⟩
    split at h
    · next sink encoded =>
      obtain rfl := Except.ok.inj h
      rcases writes_or_refuses c v with ⟨bytes, written⟩ | ⟨err, refused⟩
      · have length := Except.ok.inj ((exactSize_of_writes written).symm.trans size)
        have filled := encode_exact written
        rw [length] at filled
        obtain ⟨-, rfl⟩ := EStateM.Result.ok.inj (filled.symm.trans encoded)
        simpa [Sink.contents, Sink.written, Sink.room] using written
      · obtain ⟨_, failed⟩ := encode_refused size refused
        cases failed.symm.trans encoded
    · cases h
  · intro h
    refine ⟨bytes.length, exactSize_of_writes h, ?_⟩
    rw [encode_exact h]
    simp [Sink.contents, Sink.written, Sink.room]

theorem offWire_toBytes (c : Codec) (v : Value) : OffWire (c.toBytes v) := by
  apply OffWire.bind (Plan.offWire_exactSize c.plan v)
  intro n size
  split
  · exact offWire_ok _
  · next err sink failed =>
    have refused : c.Refuses v err := ((sameOutcome size).2 err).mpr ⟨sink, failed⟩
    exact offWire_error (Plan.offWire_emit c.plan v err (refuses_iff.mp refused))

end Codec

namespace Engine

open SchemaCodec.Action

theorem result_then {α β : Type} (step : Action Engine α) (next : α → Except Error β)
    (e : Engine) :
    Outcome.result ((step >>= fun x => ofExcept (next x) : Action Engine β) e) =
      ((step e).result >>= next) :=
  result_bind

variable {C : Catalog} {limits : Limits} {e : Engine}

theorem result_serialize (t : MessageType) (x : Instance) (e : Engine) :
    (serialize t x e).result = ((prepare t x e).result >>= fun p => p.1.toBytes p.2) :=
  result_then (prepare t x) (fun p => p.1.toBytes p.2) e

theorem result_serializeValue (schema : Schema) (v : Value) (e : Engine) :
    (serializeValue schema v e).result =
      ((codecOfSchema schema e).result >>= fun c => c.toBytes v) :=
  result_then (codecOfSchema schema) (fun c => c.toBytes v) e

theorem result_valueSize (schema : Schema) (v : Value) (e : Engine) :
    (valueSize schema v e).result =
      ((codecOfSchema schema e).result >>= fun c => c.exactSize v) :=
  result_then (codecOfSchema schema) (fun c => c.exactSize v) e

theorem serialize_eq_ok {t : MessageType} {x : Instance} {bytes : List UInt8} :
    (serialize t x e).result = .ok bytes ↔
      ∃ c v, (prepare t x e).result = .ok (c, v) ∧ c.Writes v bytes := by
  rw [result_serialize, bind_eq_ok]
  constructor
  · rintro ⟨⟨c, v⟩, prepared, h⟩
    exact ⟨c, v, prepared, Codec.toBytes_eq_ok.mp h⟩
  · rintro ⟨c, v, prepared, h⟩
    exact ⟨(c, v), prepared, Codec.toBytes_eq_ok.mpr h⟩

theorem serializeValue_eq_ok {schema : Schema} {v : Value} {bytes : List UInt8} :
    (serializeValue schema v e).result = .ok bytes ↔
      ∃ c, (codecOfSchema schema e).result = .ok c ∧ c.Writes v bytes := by
  rw [result_serializeValue, bind_eq_ok]
  simp only [Codec.toBytes_eq_ok]

theorem offWire_serialize (sound : Sound (fun _ => True) limits e) (t : MessageType)
    (x : Instance) : OffWire (serialize t x e).result := by
  have off : OffWire (prepare t x e).result :=
    fun err => (sound_prepare (fun _ _ => trivial) t x).of_error sound
  rw [result_serialize]
  exact off.bind fun p _ => Codec.offWire_toBytes p.1 p.2

theorem offWire_serializeValue (sound : Sound (fun _ => True) limits e) (schema : Schema)
    (v : Value) : OffWire (serializeValue schema v e).result := by
  have off : OffWire (codecOfSchema schema e).result :=
    fun err => (sound_codecOfSchema (fun _ _ => trivial) fun _ _ => trivial).of_error sound
  rw [result_serializeValue]
  exact off.bind fun c _ => Codec.offWire_toBytes c v

/-- In every reachable engine, every coding finds the exact size of what it writes, and a buffer of
the exact size ends the encoding of a value as growing memory does; serializing yields exactly the
bytes that the coding writes, and it never fails with an error of the wire. -/
theorem exact_size (reached : Reachable C limits e) :
    (∀ name c, e.compiled.get? name = some c → ∀ v,
      (∀ bytes, c.Writes v bytes → c.exactSize v = .ok bytes.length) ∧
      ∀ n, c.exactSize v = .ok n → c.SameOutcome v (List.replicate n 0)) ∧
    (∀ t x,
      (∀ bytes, (serialize t x e).result = .ok bytes ↔
        ∃ c v, (prepare t x e).result = .ok (c, v) ∧ c.Writes v bytes) ∧
      ∀ err, (serialize t x e).result = .error err → err.source? = none) ∧
    ∀ schema v,
      (∀ bytes, (serializeValue schema v e).result = .ok bytes ↔
        ∃ c, (codecOfSchema schema e).result = .ok c ∧ c.Writes v bytes) ∧
      ∀ err, (serializeValue schema v e).result = .error err → err.source? = none := by
  refine ⟨?_, ?_, ?_⟩
  · intro name c _ v
    exact ⟨fun bytes => Codec.exactSize_of_writes, fun n => Codec.sameOutcome⟩
  · intro t x
    exact ⟨fun bytes => serialize_eq_ok, offWire_serialize reached.sound t x⟩
  · intro schema v
    exact ⟨fun bytes => serializeValue_eq_ok, offWire_serializeValue reached.sound schema v⟩

/-- Seven as the only element of an array is written to eight bytes. Eight is the size that is found
for it, and a buffer of eight is filled. -/
theorem exact_size_int32s : ∃ e c, e = after [.codecOfSchema ⟨"Int32[]", 0, []⟩]
      (fresh ⟨fun _ => ⟨[], true, .declared⟩, 0⟩ .standard) ∧
    e.compiled.get? "Int32[]" = some c ∧
    c.Writes (.array .int32 [7]) [1, 0, 0, 0, 7, 0, 0, 0] ∧
    c.exactSize (.array .int32 [7]) = .ok 8 ∧
    c.SameOutcome (.array .int32 [7]) (List.replicate 8 0) := by
  have planned : (after [.codecOfSchema ⟨"Int32[]", 0, []⟩]
      (fresh ⟨fun _ => ⟨[], true, .declared⟩, 0⟩ .standard)).plan? "Int32[]" =
        some (.bulk .int32) := by decide +kernel
  obtain ⟨typeName, found⟩ := Reachable.exists_codec ⟨_, rfl⟩ planned
  have written : Codec.Writes ⟨typeName, .bulk .int32, .standard⟩ (.array .int32 [7])
      [1, 0, 0, 0, 7, 0, 0, 0] := ⟨_, rfl, rfl⟩
  obtain ⟨sized, fills⟩ := (exact_size ⟨_, rfl⟩).1 _ _ found (.array .int32 [7])
  have size := sized _ written
  exact ⟨_, _, rfl, found, written, size, fills 8 size⟩

end Engine

end SchemaCodec
