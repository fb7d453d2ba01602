import SchemaCodec.Proofs.Engine.RoundTrip
import SchemaCodec.Proofs.Wire.Delimited

/-! # Messages one after the other

There is no frame around a message: its own bytes tell where it ends. So messages may be written
one after the other and are read back in turn, and a message that was cut off is never taken for
another one.
-/

namespace SchemaCodec

def Codec.decodeAll (codecs : List Codec) : Decoder (List Value) := codecs.mapM Codec.decode

/-- A value within the limits of a coding with the bytes that the coding writes for it. -/
structure Message where
  codec : Codec
  value : Value
  bytes : List UInt8
  written : codec.Writes value bytes
  within : value.Within codec.limits

namespace Message

/-- The value that the message is read as. -/
def received (m : Message) : Value := m.codec.plan.normalize m.value

def concat (messages : List Message) : List UInt8 := messages.flatMap Message.bytes

theorem reads_received (m : Message) : m.codec.plan.Reads m.codec.limits m.bytes m.received :=
  Plan.reads_normalize (Codec.writes_iff.mp m.written) m.within

/-- From any position, the messages are read in turn. -/
theorem decode_concat (messages : List Message) (position : Nat) (rest : List UInt8) :
    Codec.decodeAll (messages.map codec) (.buffer position (concat messages ++ rest)) =
      .ok (messages.map received) (.buffer (position + (concat messages).length) rest) := by
  induction messages generalizing position with
  | nil => rfl
  | cons m messages ih =>
    have head : m.codec.decode (.buffer position (m.bytes ++ (concat messages ++ rest))) = _ :=
      (Plan.accepts_decode m.codec.plan).run m.reads_received position (concat messages ++ rest)
    have tail := ih (position + m.bytes.length)
    rw [Codec.decodeAll] at tail ⊢
    rw [List.map_cons, List.mapM_cons, concat, List.flatMap_cons, List.append_assoc,
      List.length_append, ← Nat.add_assoc]
    exact (Source.bind_of_ok head).trans ((Source.bind_of_ok tail).trans rfl)

end Message

namespace Codec

/-- A coding that reads a value takes bytes of which it reads the same value whatever follows them,
and of which no proper beginning is read: there the buffer ends too early, and the error tells a
position in what was left. Hence messages of any codings are read back one after the other. -/
theorem self_delimiting :
    (∀ (c : Codec) (input : List UInt8) (v : Value) (source : Source),
      c.decode (.ofBytes input) = .ok v source →
      (∀ suffix, c.decode (.ofBytes (input.take source.position ++ suffix)) =
        .ok v (.buffer source.position suffix)) ∧
      ∀ k < source.position, ∃ offset t, offset ≤ k ∧
        c.decode (.ofBytes (input.take k)) = .error (.wire (.endOfBuffer offset)) t) ∧
    ∀ (messages : List Message) (rest : List UInt8),
      decodeAll (messages.map Message.codec) (.ofBytes (Message.concat messages ++ rest)) =
        .ok (messages.map Message.received) (.buffer (Message.concat messages).length rest) := by
  constructor
  · intro c input v source read
    obtain ⟨piece, rest, rfl, rfl, whole, short⟩ := Plan.delimited_decode c.plan 0 input v source read
    rw [Source.position, Nat.zero_add] at *
    rw [List.take_left]
    refine ⟨whole, fun k less => ?_⟩
    obtain ⟨offset, t, bound, failed⟩ := short k less
    rw [Nat.zero_add] at bound
    rw [List.take_append_of_le_length (Nat.le_of_lt less)]
    exact ⟨offset, t, bound, failed⟩
  · intro messages rest
    have read := Message.decode_concat messages 0 rest
    rwa [Nat.zero_add] at read

/-- A record of ten bytes is read also where another byte follows, but not from its first seven
bytes; twice in a row, it is read twice. -/
theorem self_delimiting_twice : ∃ (m : Message) (t : Source),
    m.codec.plan = .record "P" [("name", .text), ("flags", .bulk .boolean)] ∧
    m.codec.decode (.ofBytes [1, 0, 0, 0, 0x61, 1, 0, 0, 0, 1, 9]) =
      .ok m.received (.buffer 10 [9]) ∧
    (∃ offset ≤ 7, m.codec.decode (.ofBytes [1, 0, 0, 0, 0x61, 1, 0]) =
      .error (.wire (.endOfBuffer offset)) t) ∧
    decodeAll [m.codec, m.codec] (.ofBytes
        [1, 0, 0, 0, 0x61, 1, 0, 0, 0, 1, 1, 0, 0, 0, 0x61, 1, 0, 0, 0, 1]) =
      .ok [m.received, m.received] (.buffer 20 []) := by
  let c : Codec := ⟨"P", .record "P" [("name", .text), ("flags", .bulk .boolean)], .standard⟩
  let v : Value := .record "P" [("flags", .array .boolean [true]), ("name", .text "a")]
  have within : v.Within c.limits := by
    refine .record fun p hp => ?_
    rcases List.mem_cons.mp hp with rfl | hp
    · exact .array (by decide)
    · obtain rfl := List.mem_singleton.mp hp
      exact .text (by decide)
  let m : Message := ⟨c, v, [1, 0, 0, 0, 0x61, 1, 0, 0, 0, 1], ⟨_, rfl, rfl⟩, within⟩
  have read : c.decode (.ofBytes [1, 0, 0, 0, 0x61, 1, 0, 0, 0, 1, 9]) =
      .ok m.received (.buffer 10 [9]) := rfl
  obtain ⟨offset, t, bound, failed⟩ := (self_delimiting.1 c _ _ _ read).2 7 (by decide)
  exact ⟨m, t, rfl, read, ⟨offset, bound, failed⟩, self_delimiting.2 [m, m] []⟩

end Codec

end SchemaCodec
