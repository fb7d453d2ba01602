import SchemaCodec.Scalar.Bytes
import SchemaCodec.Wire.Error

/-! # Sinks

Where bytes are written to: memory that grows, a window of fixed size, or a stream of fixed size.
Each piece of bytes is written as a whole. A window refuses a piece that does not fit; a stream of
fixed size takes as much of it as fits and then fails, without counting it.
-/

namespace SchemaCodec

/-- Written bytes, the newest first, with the old contents of the room that is left. -/
inductive Sink where
  | growing (reversed : List UInt8)
  | window (reversed room : List UInt8)
  | filling (position : Nat) (reversed room : List UInt8)
  deriving DecidableEq, Repr

/-- A step that writes: it leaves the sink behind also when it fails. -/
abbrev Writer := EStateM WireError Sink

namespace Sink

def empty : Sink := .growing []

def ofBuffer (contents : List UInt8) : Sink := .window [] contents

def ofRoom (contents : List UInt8) : Sink := .filling 0 [] contents

def written : Sink → List UInt8
  | growing reversed => reversed.reverse
  | window reversed _ => reversed.reverse
  | filling _ reversed _ => reversed.reverse

def position : Sink → Nat
  | growing reversed => reversed.length
  | window reversed _ => reversed.length
  | filling position _ _ => position

def room : Sink → List UInt8
  | growing _ => []
  | window _ room => room
  | filling _ _ room => room

def contents (s : Sink) : List UInt8 := s.written ++ s.room

def fits (piece room : List UInt8) : Bool := (room.take piece.length).length = piece.length

theorem fits_iff (piece room : List UInt8) : fits piece room ↔ piece.length ≤ room.length := by
  simp only [fits, List.length_take, decide_eq_true_eq]
  omega

def noRoom : String := "failed to write whole buffer"

def write (piece : List UInt8) : Writer Unit
  | growing reversed => .ok () (.growing (piece.reverse ++ reversed))
  | window reversed room =>
    if fits piece room then .ok () (.window (piece.reverse ++ reversed) (room.drop piece.length))
    else .error (.bufferTooSmall reversed.length) (.window reversed room)
  | filling position reversed room =>
    if fits piece room then
      .ok () (.filling (position + piece.length) (piece.reverse ++ reversed)
        (room.drop piece.length))
    else
      .error (.stream noRoom)
        (.filling position ((piece.take room.length).reverse ++ reversed) [])

theorem write_ok {piece : List UInt8} {s t : Sink} (h : write piece s = .ok () t) :
    t.written = s.written ++ piece ∧ t.position = s.position + piece.length ∧
      t.room = s.room.drop piece.length := by
  cases s with
  | growing reversed =>
    obtain ⟨_, rfl⟩ := EStateM.Result.ok.inj h
    simp [written, position, room, Nat.add_comm]
  | window reversed room =>
    rw [write] at h
    split at h
    · obtain ⟨_, rfl⟩ := EStateM.Result.ok.inj h
      simp [written, position, Sink.room, Nat.add_comm]
    · nomatch h
  | filling position reversed room =>
    rw [write] at h
    split at h
    · obtain ⟨_, rfl⟩ := EStateM.Result.ok.inj h
      simp [written, Sink.position, Sink.room]
    · nomatch h

end Sink

namespace Writer

def scalar (k : Scalar) (x : k.Carrier) : Writer Unit := Sink.write (k.toBytes x)

def array (k : Scalar) (xs : List k.Carrier) : Writer Unit := Sink.write (k.runBytes xs)

end Writer

example : (Writer.scalar .uint16 258).run (.window [9] [0, 0, 0]) =
    .ok () (.window [1, 2, 9] [0]) := rfl

end SchemaCodec
