import SchemaCodec.Wire.Error

/-! # Sources

Where bytes are read from: a buffer that knows its length, or a stream that hands its bytes out in
packets and then ends or fails. A read asks for an exact number of bytes. On a buffer a read that
fails takes nothing; on a stream it takes whatever was left.
-/

namespace SchemaCodec

inductive Ending where
  | finished
  | failing (fault : String)
  deriving DecidableEq, Repr

/-- Unread bytes with the position reached so far. -/
inductive Source where
  | buffer (position : Nat) (rest : List UInt8)
  | stream (position : Nat) (packets : List (List UInt8)) (ending : Ending)
  deriving DecidableEq, Repr

abbrev Reader := EStateM WireError Source

/-- The first `n` bytes of the packets and what they leave, if they are that many. -/
def takePackets : Nat → List (List UInt8) → Option (List UInt8 × List (List UInt8))
  | 0, packets => some ([], packets)
  | _ + 1, [] => none
  | n + 1, packet :: packets =>
    let piece := packet.take (n + 1)
    if piece.length = n + 1 then some (piece, packet.drop (n + 1) :: packets)
    else (takePackets (n + 1 - piece.length) packets).map fun (bytes, rest) =>
      (piece ++ bytes, rest)

theorem map_takePackets (n : Nat) (packets : List (List UInt8)) :
    (takePackets n packets).map (fun (bytes, rest) => (bytes, rest.flatten)) =
      if n ≤ packets.flatten.length then
        some (packets.flatten.take n, packets.flatten.drop n)
      else none := by
  induction packets generalizing n with
  | nil => cases n <;> simp [takePackets]
  | cons packet packets ih =>
    cases n with
    | zero => simp [takePackets]
    | succ n =>
      rw [takePackets, List.flatten_cons, List.length_append, List.take_append, List.drop_append]
      by_cases h : n + 1 ≤ packet.length
      · have none_left : n + 1 - packet.length = 0 := Nat.sub_eq_zero_of_le h
        simp [h, none_left, Nat.le_add_right_of_le h]
      · have taken : packet.take (n + 1) = packet := List.take_of_length_le (by omega)
        have dropped : packet.drop (n + 1) = [] := List.drop_of_length_le (by omega)
        simp only [taken, dropped, List.nil_append]
        rw [if_neg (by omega)]
        have rest := ih (n + 1 - packet.length)
        split at rest
        · obtain ⟨⟨bytes, left⟩, found, same⟩ := Option.map_eq_some_iff.mp rest
          obtain ⟨rfl, flat⟩ := Prod.mk.inj same
          rw [if_pos (by omega)]
          simp [found, flat]
        · rw [if_neg (by omega), Option.map_eq_none_iff.mp rest]
          rfl

namespace Source

def ofBytes (bytes : List UInt8) : Source := .buffer 0 bytes

def position : Source → Nat
  | buffer position _ => position
  | stream position _ _ => position

def unread : Source → List UInt8
  | buffer _ rest => rest
  | stream _ packets _ => packets.flatten

/-- The number of unread bytes, where the source can tell. -/
def remaining? : Source → Option Nat
  | buffer _ rest => some rest.length
  | stream _ _ _ => none

def read (n : Nat) : Reader (List UInt8)
  | buffer position rest =>
    let piece := rest.take n
    if piece.length = n then .ok piece (.buffer (position + n) (rest.drop n))
    else .error (.endOfBuffer position) (.buffer position rest)
  | stream position packets ending =>
    match takePackets n packets with
    | some (bytes, packets) => .ok bytes (.stream (position + n) packets ending)
    | none =>
      .error (match ending with
        | .finished => .endOfStream position
        | .failing fault => .stream fault) (.stream position [] ending)

end Source

example : takePackets 3 [[1, 2], [], [3, 4]] = some ([1, 2, 3], [[4]]) := by decide

end SchemaCodec
