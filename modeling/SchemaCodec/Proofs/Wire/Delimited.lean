import SchemaCodec.Plan.Decode
import SchemaCodec.Proofs.Wire.Reading

/-! # Steps that know where their input ends

The bytes that a step takes from a buffer tell where they end. Whatever follows them, the step takes
the same bytes and ends in the same value; where any of them are missing, it fails for want of bytes.
-/

namespace SchemaCodec

namespace Source

variable {ε α β : Type} {shortage : Nat → ε}

/-- Every run that ends in a value takes a piece from the front of the buffer. It takes the piece
also where something else follows it, and where the piece is cut off, the step fails with a
shortage at a position that the cut off piece reaches. -/
def Delimited (shortage : Nat → ε) (step : EStateM ε Source α) : Prop :=
  ∀ position bytes x s, step (.buffer position bytes) = .ok x s →
    ∃ piece rest, bytes = piece ++ rest ∧ s = .buffer (position + piece.length) rest ∧
      (∀ suffix, step (.buffer position (piece ++ suffix)) =
        .ok x (.buffer (position + piece.length) suffix)) ∧
      ∀ k < piece.length, ∃ offset t, offset ≤ position + k ∧
        step (.buffer position (piece.take k)) = .error (shortage offset) t

theorem delimited_pure (x : α) : Delimited shortage (pure x : EStateM ε Source α) := by
  rintro position bytes y s ⟨⟩
  exact ⟨[], bytes, rfl, rfl, fun _ => rfl, fun _ none => absurd none (Nat.not_lt_zero _)⟩

theorem delimited_throw (e : ε) : Delimited shortage (throw e : EStateM ε Source α) := by
  intro position bytes y s h
  cases h

theorem bind_of_error {step : EStateM ε Source α} {next : α → EStateM ε Source β} {s t : Source}
    {e : ε} (h : step s = .error e t) : (step >>= next) s = .error e t := by
  show EStateM.bind step next s = _
  unfold EStateM.bind
  rw [h]

theorem bind_of_ok {step : EStateM ε Source α} {next : α → EStateM ε Source β} {s t : Source}
    {x : α} (h : step s = .ok x t) : (step >>= next) s = next x t := by
  show EStateM.bind step next s = _
  unfold EStateM.bind
  rw [h]

theorem Delimited.bind {step : EStateM ε Source α} {next : α → EStateM ε Source β}
    (first : Delimited shortage step) (second : ∀ x, Delimited shortage (next x)) :
    Delimited shortage (step >>= next) := by
  intro position bytes y t h
  obtain ⟨x, s, hx, hy⟩ := run_bind.mp h
  obtain ⟨front, _, rfl, rfl, whole, short⟩ := first _ _ _ _ hx
  obtain ⟨back, rest, rfl, rfl, whole', short'⟩ := second x _ _ _ _ hy
  refine ⟨front ++ back, rest, (List.append_assoc ..).symm, ?_, fun suffix => ?_, fun k less => ?_⟩
  · rw [List.length_append, Nat.add_assoc]
  · rw [List.append_assoc, bind_of_ok (whole _), whole', List.length_append, Nat.add_assoc]
  · rw [List.length_append] at less
    by_cases inside : k < front.length
    · obtain ⟨offset, s, bound, failed⟩ := short k inside
      refine ⟨offset, s, bound, ?_⟩
      rw [List.take_append_of_le_length (Nat.le_of_lt inside)]
      exact bind_of_error failed
    · obtain ⟨offset, s, bound, failed⟩ := short' (k - front.length) (by omega)
      refine ⟨offset, s, by omega, ?_⟩
      rw [List.take_append, List.take_of_length_le (Nat.not_lt.mp inside), bind_of_ok (whole _)]
      exact failed

theorem delimited_read (n : Nat) : Delimited WireError.endOfBuffer (read n) := by
  intro position bytes x s h
  obtain ⟨piece, rest, rfl, rfl, length, rfl⟩ := (accepts_read n position bytes x s).mp h
  refine ⟨x, rest, rfl, rfl, fun suffix => (accepts_read n).run ⟨length, rfl⟩ position suffix,
    fun k less => ⟨position, .buffer position (x.take k), Nat.le_add_right _ _, ?_⟩⟩
  have short : ((x.take k).take n).length ≠ n := by
    rw [List.length_take, List.length_take]
    omega
  rw [read, if_neg short]

end Source

open Source

namespace Reader

theorem delimited_ofExcept {α : Type} (outcome : Except WireError α) :
    Delimited WireError.endOfBuffer (ofExcept outcome) := by
  cases outcome with
  | ok x => exact delimited_pure x
  | error e => exact delimited_throw e

theorem delimited_block (count width : Nat) :
    Delimited WireError.endOfBuffer (block count width) := by
  unfold block
  split
  · exact delimited_read _
  · exact delimited_throw _

theorem delimited_scalar (k : Scalar) : Delimited WireError.endOfBuffer (scalar k) :=
  (delimited_read k.width).bind fun _ => delimited_ofExcept _

theorem delimited_array (k : Scalar) (count : Nat) :
    Delimited WireError.endOfBuffer (array k count) :=
  (delimited_block count k.width).bind fun _ => delimited_ofExcept _

end Reader

namespace Decoder

variable {α : Type}

def shortage (offset : Nat) : Error := .wire (.endOfBuffer offset)

theorem delimited_ofReader {reader : Reader α} (h : Delimited WireError.endOfBuffer reader) :
    Delimited shortage (ofReader reader) := by
  intro position bytes x s run
  unfold ofReader at run
  split at run
  · next y t read =>
    obtain ⟨rfl, rfl⟩ := EStateM.Result.ok.inj run
    obtain ⟨piece, rest, rfl, rfl, whole, short⟩ := h _ _ _ _ read
    refine ⟨piece, rest, rfl, rfl, fun suffix => ?_, fun k less => ?_⟩
    · unfold ofReader
      rw [whole]
    · obtain ⟨offset, t, bound, failed⟩ := short k less
      refine ⟨offset, t, bound, ?_⟩
      unfold ofReader
      rw [failed]
      rfl
  · cases run

theorem delimited_position {next : Nat → Decoder α} (h : ∀ n, Delimited shortage (next n)) :
    Delimited shortage (position >>= next) :=
  fun position => h position position

theorem delimited_count (counted : Counted) (limit : Nat) :
    Delimited shortage (count counted limit) := by
  refine delimited_position fun offset =>
    (delimited_ofReader (Reader.delimited_scalar .int32)).bind fun raw => ?_
  split
  · exact delimited_throw _
  · dsimp only
    split
    · exact delimited_throw _
    · exact delimited_pure _

theorem delimited_times {decoder : Decoder α} (h : Delimited shortage decoder) (n : Nat) :
    Delimited shortage (times decoder n) := by
  induction n with
  | zero => exact delimited_pure []
  | succ n ih => exact h.bind fun x => ih.bind fun xs => delimited_pure (x :: xs)

theorem delimited_text (limit : Nat) : Delimited shortage (text limit) := by
  refine (delimited_count .string limit).bind fun length =>
    (delimited_ofReader (Reader.delimited_block length 1)).bind fun bytes => ?_
  split
  · exact delimited_pure _
  · exact delimited_throw _

end Decoder

namespace Plan

open Decoder

variable {limits : Limits}

theorem delimited_decodeFields {fields : List (String × Plan)}
    (h : ∀ p ∈ fields, Delimited shortage (decode limits p.2)) :
    Delimited shortage (decodeFields limits fields) := by
  induction fields with
  | nil =>
    rw [decodeFields]
    exact delimited_pure []
  | cons field rest ih =>
    obtain ⟨name, plan⟩ := field
    rw [decodeFields]
    exact (h _ List.mem_cons_self).bind fun v =>
      (ih fun p hp => h p (List.mem_cons_of_mem _ hp)).bind fun vs => delimited_pure _

/-- Every plan reads exactly what the bytes before tell it to read. -/
theorem delimited_decode (plan : Plan) : Delimited shortage (decode limits plan) := by
  induction plan with
  | scalar k =>
    rw [decode]
    exact (delimited_ofReader (Reader.delimited_scalar k)).bind fun x => delimited_pure _
  | text =>
    rw [decode]
    exact (delimited_text limits.maxText).bind fun s => delimited_pure _
  | bulk k =>
    rw [decode]
    exact (delimited_count .sequence limits.maxSequence).bind fun count =>
      (delimited_ofReader (Reader.delimited_array k count)).bind fun xs => delimited_pure _
  | elements element ih =>
    rw [decode]
    exact (delimited_count .sequence limits.maxSequence).bind fun count =>
      (delimited_times ih count).bind fun items => delimited_pure _
  | record typeName fields ih =>
    rw [decode]
    exact (delimited_decodeFields ih).bind fun values => delimited_pure _

end Plan

end SchemaCodec
