import SchemaCodec.Proofs.Engine.ExactSize

/-! # Writing into bounded buffers

A buffer takes an encoding from an offset on if it has room for all of it. If it has not, it holds
the pieces in front of the first one that did not fit, and everything else in it stays as it was.
-/

namespace SchemaCodec

def overwrite (buffer : List UInt8) (offset : Nat) (bytes : List UInt8) : List UInt8 :=
  buffer.take offset ++ bytes ++ buffer.drop (offset + bytes.length)

/-- What writing bytes into a buffer from an offset on yields and leaves behind. -/
structure Placed (bytes buffer : List UInt8) (offset : Nat) (result : Except Error Nat)
    (after : List UInt8) : Prop where
  /-- All bytes are written exactly if the buffer has room for them. -/
  ok_iff : result = .ok bytes.length ↔
    offset ≤ buffer.length ∧ bytes.length ≤ buffer.length - offset
  /-- A step that succeeds counts the bytes and replaces as many. -/
  filled : ∀ n, result = .ok n → n = bytes.length ∧ after = overwrite buffer offset bytes
  /-- Nothing is written beyond the end. -/
  outside : buffer.length < offset →
    result = .error (.wire (.offsetPastEnd offset buffer.length)) ∧ after = buffer
  /-- Without enough room, the error tells how many of the bytes have been written. -/
  overflow : offset ≤ buffer.length → buffer.length - offset < bytes.length →
    ∃ done, done <+: bytes ∧ done.length < bytes.length ∧ done.length ≤ buffer.length - offset ∧
      result = .error (.wire (.bufferTooSmall done.length)) ∧
      after = overwrite buffer offset done
  /-- The buffer keeps its size, and what is in front of the offset. -/
  frame : after.length = buffer.length ∧ after.take offset = buffer.take offset

section

variable {bytes buffer : List UInt8} {offset : Nat}

theorem length_overwrite (start : offset ≤ buffer.length)
    (room : bytes.length ≤ buffer.length - offset) :
    (overwrite buffer offset bytes).length = buffer.length := by
  simp only [overwrite, List.length_append, List.length_take, List.length_drop]
  omega

theorem take_overwrite (start : offset ≤ buffer.length) :
    (overwrite buffer offset bytes).take offset = buffer.take offset := by
  rw [overwrite, List.append_assoc, List.take_left' (List.length_take_of_le start)]

end

namespace Codec

variable {c : Codec} {v : Value} {bytes room : List UInt8}

theorem encode_overflow (h : c.Writes v bytes) (overflow : room.length < bytes.length) :
    ∃ done, done <+: bytes ∧ done.length < bytes.length ∧ done.length ≤ room.length ∧
      c.encode v (.ofBuffer room) =
        .error (.wire (.bufferTooSmall done.length))
          (.window done.reverse (room.drop done.length)) := by
  obtain ⟨-, rfl⟩ := writes_iff.mp h
  obtain ⟨done, front, proper, bound, run⟩ := Emission.writePieces_overflow overflow []
  refine ⟨done, front, proper, bound, ?_⟩
  rw [encode, Plan.encode, Emission.writeTo, Sink.ofBuffer, run, List.length_nil, Nat.zero_add,
    List.append_nil]

end Codec

namespace Engine

open SchemaCodec.Action

variable {c : Codec} {v : Value} {bytes buffer : List UInt8} {offset : Nat}

theorem encodeAt_outside (h : buffer.length < offset) :
    encodeAt c v offset buffer =
      .error (.wire (.offsetPastEnd offset buffer.length)) buffer :=
  if_pos h

theorem encodeAt_fits (h : c.Writes v bytes) (start : offset ≤ buffer.length)
    (fits : bytes.length ≤ buffer.length - offset) :
    encodeAt c v offset buffer = .ok bytes.length (overwrite buffer offset bytes) := by
  have room : bytes.length ≤ (buffer.drop offset).length := by rwa [List.length_drop]
  rw [encodeAt, if_neg (Nat.not_lt.mpr start), Codec.encode_fits h room]
  simp only [Sink.position, Sink.contents, Sink.written, Sink.room, List.length_reverse,
    List.reverse_reverse, List.drop_drop, overwrite, List.append_assoc]

theorem encodeAt_overflow (h : c.Writes v bytes) (start : offset ≤ buffer.length)
    (overflow : buffer.length - offset < bytes.length) :
    ∃ done, done <+: bytes ∧ done.length < bytes.length ∧ done.length ≤ buffer.length - offset ∧
      encodeAt c v offset buffer =
        .error (.wire (.bufferTooSmall done.length)) (overwrite buffer offset done) := by
  have room : (buffer.drop offset).length < bytes.length := by rwa [List.length_drop]
  obtain ⟨done, front, proper, bound, run⟩ := Codec.encode_overflow h room
  rw [List.length_drop] at bound
  refine ⟨done, front, proper, bound, ?_⟩
  rw [encodeAt, if_neg (Nat.not_lt.mpr start), run]
  simp only [Sink.contents, Sink.written, Sink.room, List.reverse_reverse, List.drop_drop,
    overwrite, List.append_assoc]

theorem placed_encodeAt (h : c.Writes v bytes) (buffer : List UInt8) (offset : Nat) :
    Placed bytes buffer offset (ofStateful (encodeAt c v offset) buffer).result
      (ofStateful (encodeAt c v offset) buffer).state := by
  rw [ofStateful]
  rcases Nat.lt_or_ge buffer.length offset with outside | start
  · rw [encodeAt_outside outside]
    refine ⟨?_, ?_, fun _ => ⟨rfl, rfl⟩, ?_, ⟨rfl, rfl⟩⟩
    · constructor
      · intro done
        cases done
      · rintro ⟨start, -⟩
        omega
    · intro n done
      cases done
    · intro start
      omega
  · rcases Nat.lt_or_ge (buffer.length - offset) bytes.length with overflow | fits
    · obtain ⟨done, front, proper, bound, run⟩ := encodeAt_overflow h start overflow
      rw [run]
      refine ⟨?_, ?_, ?_, fun _ _ => ⟨done, front, proper, bound, rfl, rfl⟩,
        length_overwrite start bound, take_overwrite start⟩
      · constructor
        · intro done
          cases done
        · rintro ⟨-, fits⟩
          omega
      · intro n done
        cases done
      · intro outside
        omega
    · rw [encodeAt_fits h start fits]
      refine ⟨⟨fun _ => ⟨start, fits⟩, fun _ => rfl⟩, ?_, ?_, ?_, length_overwrite start fits,
        take_overwrite start⟩
      · rintro n ⟨⟩
        exact ⟨rfl, rfl⟩
      · intro outside
        omega
      · intro _ overflow
        omega

/-- A value that a coding writes into growing memory is placed in a buffer from an offset on, and
so is an instance that has this coding and this value. -/
theorem bounded_slice (written : c.Writes v bytes) (buffer : List UInt8) (offset : Nat) :
    Placed bytes buffer offset (ofStateful (encodeAt c v offset) buffer).result
      (ofStateful (encodeAt c v offset) buffer).state ∧
    ∀ t x e, (prepare t x e).result = .ok (c, v) →
      Placed bytes buffer offset (serializeAt t x offset (e, buffer)).result
        (serializeAt t x offset (e, buffer)).state.2 := by
  have placed := placed_encodeAt written buffer offset
  refine ⟨placed, ?_⟩
  intro t x e prepared
  have run : serializeAt t x offset (e, buffer) =
      Action.bind (first (prepare t x)) (fun p => second (ofStateful (encodeAt p.1 p.2 offset)))
        (e, buffer) := rfl
  have found : (first (prepare t x) (e, buffer)).result = .ok (c, v) := prepared
  rw [run, Action.bind, found]
  exact placed

/-- A buffer of six bytes has room for the count of two numbers from its second byte on, but not for
the numbers. -/
theorem bounded_slice_int16s : ∃ e, e = fresh ⟨fun _ => ⟨[], true, .declared⟩, 0⟩ .standard ∧
    Placed [2, 0, 0, 0, 1, 0, 2, 0] [9, 9, 9, 9, 9, 9] 1
      (serializeAt (.sequence .vector (.scalar .int16)) (.items [.scalar .int16 1, .scalar .int16 2])
        1 (e, [9, 9, 9, 9, 9, 9])).result
      (serializeAt (.sequence .vector (.scalar .int16)) (.items [.scalar .int16 1, .scalar .int16 2])
        1 (e, [9, 9, 9, 9, 9, 9])).state.2 := by
  have serialized : (serialize (.sequence .vector (.scalar .int16))
      (.items [.scalar .int16 1, .scalar .int16 2])
      (fresh ⟨fun _ => ⟨[], true, .declared⟩, 0⟩ .standard)).result.toOption =
        some [2, 0, 0, 0, 1, 0, 2, 0] := by decide +kernel
  obtain ⟨c, v, prepared, written⟩ := serialize_eq_ok.mp (toOption_eq_some.mp serialized)
  exact ⟨_, rfl, (bounded_slice written _ 1).2 _ _ _ prepared⟩

end Engine

end SchemaCodec
