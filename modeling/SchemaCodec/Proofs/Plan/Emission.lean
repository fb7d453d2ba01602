import Mathlib.Data.List.Forall2
import SchemaCodec.Plan.Emission

/-! # What emissions yield

An emission that did not fail yields its bytes. Memory that grows takes every emission as it is, and
so does a window with room for all bytes of it, whether it fails or not. A window with less room
takes whole pieces as long as they fit.
-/

namespace SchemaCodec

namespace Sink

theorem fits_append (front back room : List UInt8) :
    fits (front ++ back) room = (fits front room && fits back (room.drop front.length)) := by
  rw [Bool.eq_iff_iff, Bool.and_eq_true, fits_iff, fits_iff, fits_iff, List.length_append,
    List.length_drop]
  omega

/-- Bytes can be written in one piece exactly if they can be written in two. -/
theorem write_append {front back : List UInt8} {s t : Sink} :
    write (front ++ back) s = .ok () t ↔
      ∃ m, write front s = .ok () m ∧ write back m = .ok () t := by
  cases s with
  | growing reversed => simp [write]
  | window reversed room =>
    simp only [write, fits_append]
    cases fits front room with
    | true => cases last : fits back (room.drop front.length) <;> simp [last]
    | false => simp
  | filling position reversed room =>
    simp only [write, fits_append]
    cases fits front room with
    | true =>
      cases last : fits back (room.drop front.length) <;> simp [last, Nat.add_assoc]
    | false => simp

end Sink

namespace Emission

variable {a b e : Emission} {bytes : List UInt8}

/-- The emission ends without error and says the given bytes. -/
def Yields (e : Emission) (bytes : List UInt8) : Prop := e.failure = none ∧ e.bytes = bytes

@[simp] theorem failure_empty : empty.failure = none := rfl

@[simp] theorem bytes_empty : empty.bytes = [] := rfl

@[simp] theorem failure_piece (bytes : List UInt8) : (piece bytes).failure = none := rfl

@[simp] theorem bytes_piece (bytes : List UInt8) : (piece bytes).bytes = bytes :=
  List.append_nil bytes

@[simp] theorem failure_fail (err : Error) : (fail err).failure = some err := rfl

@[simp] theorem bytes_fail (err : Error) : (fail err).bytes = [] := rfl

theorem failure_append (h : a.failure = none) (b : Emission) : (a ++ b).failure = b.failure := by
  obtain ⟨pieces, _ | err⟩ := a
  · rfl
  · cases h

theorem bytes_append (h : a.failure = none) (b : Emission) :
    (a ++ b).bytes = a.bytes ++ b.bytes := by
  obtain ⟨pieces, _ | err⟩ := a
  · exact List.flatten_append
  · cases h

theorem append_of_failure {err : Error} (h : a.failure = some err) (b : Emission) :
    a ++ b = a := by
  obtain ⟨pieces, _ | _⟩ := a
  · cases h
  · rfl

@[simp] theorem yields_empty : empty.Yields bytes ↔ bytes = [] :=
  ⟨fun h => h.2.symm, fun h => ⟨rfl, h.symm⟩⟩

@[simp] theorem yields_piece {written : List UInt8} :
    (piece written).Yields bytes ↔ bytes = written := by
  simp [Yields, eq_comm]

@[simp] theorem not_yields_fail {err : Error} : ¬ (fail err).Yields bytes := fun h => nomatch h.1

theorem yields_append :
    (a ++ b).Yields bytes ↔ ∃ front back, a.Yields front ∧ b.Yields back ∧ bytes = front ++ back := by
  constructor
  · rintro ⟨clean, rfl⟩
    cases h : a.failure with
    | none =>
      rw [failure_append h] at clean
      exact ⟨a.bytes, b.bytes, ⟨h, rfl⟩, ⟨clean, rfl⟩, bytes_append h b⟩
    | some err =>
      rw [append_of_failure h, h] at clean
      cases clean
  · rintro ⟨front, back, ⟨ha, rfl⟩, ⟨hb, rfl⟩, rfl⟩
    exact ⟨(failure_append ha b).trans hb, bytes_append ha b⟩

theorem yields_each {α : Type} {emit : α → Emission} {xs : List α} :
    (each emit xs).Yields bytes ↔
      ∃ pieces, List.Forall₂ (fun x piece => (emit x).Yields piece) xs pieces ∧
        bytes = pieces.flatten := by
  induction xs generalizing bytes with
  | nil => simp [each]
  | cons x xs ih =>
    rw [each, yields_append]
    constructor
    · rintro ⟨front, back, head, tail, rfl⟩
      obtain ⟨pieces, all, rfl⟩ := ih.mp tail
      exact ⟨front :: pieces, .cons head all, rfl⟩
    · rintro ⟨pieces, all, rfl⟩
      cases all with
      | cons head all => exact ⟨_, _, head, ih.mpr ⟨_, all, rfl⟩, rfl⟩

theorem yields_of_mem {α : Type} {emit : α → Emission} {xs : List α}
    (h : (each emit xs).Yields bytes) {x : α} (hx : x ∈ xs) :
    ∃ piece, (emit x).Yields piece := by
  induction xs generalizing bytes with
  | nil => cases hx
  | cons y ys ih =>
    obtain ⟨front, back, head, tail, -⟩ := yields_append.mp h
    rcases List.mem_cons.mp hx with rfl | hx
    · exact ⟨front, head⟩
    · exact ih tail hx

/-! ## Writing -/

theorem writePieces_growing (pieces : List (List UInt8)) (reversed : List UInt8) :
    writePieces pieces (.growing reversed) =
      .ok () (.growing (pieces.flatten.reverse ++ reversed)) := by
  induction pieces generalizing reversed with
  | nil => rfl
  | cons piece pieces ih =>
    rw [writePieces, Sink.write]
    simp only [ih]
    rw [List.flatten_cons, List.reverse_append, List.append_assoc]

theorem writePieces_window {pieces : List (List UInt8)} {reversed room : List UInt8}
    (h : pieces.flatten.length ≤ room.length) :
    writePieces pieces (.window reversed room) =
      .ok () (.window (pieces.flatten.reverse ++ reversed) (room.drop pieces.flatten.length)) := by
  induction pieces generalizing reversed room with
  | nil => rfl
  | cons piece pieces ih =>
    rw [List.flatten_cons, List.length_append] at h
    have fits : Sink.fits piece room = true := (Sink.fits_iff piece room).mpr (by omega)
    have left : pieces.flatten.length ≤ (room.drop piece.length).length := by
      rw [List.length_drop]; omega
    rw [writePieces, Sink.write, if_pos fits]
    simp only [ih left]
    rw [List.flatten_cons, List.reverse_append, List.append_assoc, List.length_append,
      List.drop_drop]

/-- A window without room for all pieces takes those in front of the first that does not fit. -/
theorem writePieces_overflow {pieces : List (List UInt8)} {room : List UInt8}
    (h : room.length < pieces.flatten.length) (reversed : List UInt8) :
    ∃ done, done <+: pieces.flatten ∧ done.length < pieces.flatten.length ∧
      done.length ≤ room.length ∧
      writePieces pieces (.window reversed room) =
        .error (.wire (.bufferTooSmall (reversed.length + done.length)))
          (.window (done.reverse ++ reversed) (room.drop done.length)) := by
  induction pieces generalizing reversed room with
  | nil => cases h
  | cons piece pieces ih =>
    rw [List.flatten_cons, List.length_append] at h
    rw [writePieces, Sink.write, List.flatten_cons, List.length_append]
    by_cases fits : piece.length ≤ room.length
    · have left : (room.drop piece.length).length < pieces.flatten.length := by
        rw [List.length_drop]
        omega
      obtain ⟨done, front, proper, bound, run⟩ := ih left (piece.reverse ++ reversed)
      rw [List.length_drop] at bound
      refine ⟨piece ++ done, (List.prefix_append_right_inj piece).mpr front, ?_, ?_, ?_⟩
      · rw [List.length_append]
        omega
      · rw [List.length_append]
        omega
      · rw [if_pos ((Sink.fits_iff piece room).mpr fits)]
        dsimp only
        rw [run, List.length_append, List.length_append, List.length_reverse, List.reverse_append,
          List.append_assoc, List.drop_drop, Nat.add_comm piece.length reversed.length,
          Nat.add_assoc]
    · refine ⟨[], List.nil_prefix, ?_, Nat.zero_le _, ?_⟩
      · rw [List.length_nil]
        omega
      · rw [if_neg fun taken => fits ((Sink.fits_iff piece room).mp taken)]
        rfl

theorem writePieces_eq_ok {pieces : List (List UInt8)} {s t : Sink} :
    writePieces pieces s = .ok () t ↔ Sink.write pieces.flatten s = .ok () t := by
  induction pieces generalizing s with
  | nil =>
    rw [writePieces, List.flatten_nil]
    cases s <;> simp [Sink.write, Sink.fits]
  | cons piece pieces ih =>
    rw [writePieces, List.flatten_cons, Sink.write_append]
    cases head : Sink.write piece s with
    | ok x m =>
      dsimp only
      rw [ih]
      simp
    | error e m => simp

theorem writeTo_growing (e : Emission) (reversed : List UInt8) :
    e.writeTo (.growing reversed) =
      match e.failure with
      | none => .ok () (.growing (e.bytes.reverse ++ reversed))
      | some err => .error err (.growing (e.bytes.reverse ++ reversed)) := by
  rw [writeTo, writePieces_growing]
  rfl

theorem writeTo_window {room : List UInt8} (h : e.bytes.length ≤ room.length)
    (reversed : List UInt8) :
    e.writeTo (.window reversed room) =
      match e.failure with
      | none => .ok () (.window (e.bytes.reverse ++ reversed) (room.drop e.bytes.length))
      | some err =>
        .error err (.window (e.bytes.reverse ++ reversed) (room.drop e.bytes.length)) := by
  rw [writeTo, writePieces_window h]
  rfl

end Emission

end SchemaCodec
