import Mathlib.Tactic.ByContra
import SchemaCodec.Plan.Codec

/-! # Streams instead of buffers

A decoder cannot tell whether its bytes lie in one buffer or come in packets. Packets are only ever
taken apart by exact reads, and each of them either succeeds on both sources or fails on both, at
the same position; all that differs is what the failure is called.
-/

namespace SchemaCodec

def Ending.error (position : Nat) : Ending → WireError
  | finished => .endOfStream position
  | failing fault => .stream fault

namespace Error

/-- The error in the place of one on a buffer, where the bytes come from a stream. -/
def onStream (ending : Ending) : Error → Error
  | wire (.endOfBuffer offset) => wire (ending.error offset)
  | e => e

/-- The error can occur where no stream is involved. -/
def OffStream : Error → Prop
  | wire (.endOfStream _) => False
  | wire (.stream _) => False
  | _ => True

variable {e : Error} {ending : Ending} {fault : String}

end Error

/-- A read after a look at how much is left, where the source can tell. -/
def Source.checkedRead (n : Nat) : Reader (List UInt8) := fun source =>
  match source.remaining? with
  | some left =>
    if left < n then .error (.endOfBuffer source.position) source else Source.read n source
  | none => Source.read n source

theorem Source.checkedRead_eq_read (n : Nat) : checkedRead n = read n := by
  funext source
  cases source with
  | buffer position rest =>
    show (if rest.length < n then _ else _) = _
    split
    · next short =>
      have cut : (rest.take n).length ≠ n := by
        rw [List.length_take]
        omega
      rw [read, if_neg cut]
      rfl
    · rfl
  | stream position packets ending => rfl

/-- A run may be read with a look ahead or without one. -/
theorem Reader.block_eq_checked (count width : Nat) :
    block count width =
      if count * width < wordBound then Source.checkedRead (count * width)
      else throw (.runOverflow count) := by
  rw [Source.checkedRead_eq_read]
  rfl

namespace Scalar

variable (k : Scalar) {e : WireError}

theorem ofWord_error {n : Nat} (h : k.ofWord n = .error e) : ∃ word, e = .notCharacter word := by
  unfold ofWord at h
  split at h <;> cases h
  exact ⟨n, rfl⟩

theorem ofWords_error {ns : List Nat} (h : k.ofWords ns = .error e) :
    ∃ word, e = .notCharacter word := by
  induction ns with
  | nil => cases h
  | cons n ns ih =>
    rw [ofWords] at h
    split at h
    · next first =>
      cases h
      exact k.ofWord_error first
    · cases rest : k.ofWords ns with
      | ok xs =>
        rw [rest] at h
        cases h
      | error e' =>
        rw [rest] at h
        cases h
        exact ih rest

end Scalar

namespace Decoder

variable {α β : Type} {ending : Ending} {limits : Limits}

def outcome : EStateM.Result Error Source α → Except Error α × Nat
  | .ok x s => (.ok x, s.position)
  | .error e s => (.error e, s.position)

/-- How the ends of two runs correspond, the first on a buffer and the second on a stream that hands
out the same bytes. -/
inductive Mirrors (ending : Ending) :
    EStateM.Result Error Source α → EStateM.Result Error Source α → Prop

  | ok {position : Nat} {rest : List UInt8} {packets : List (List UInt8)} (x : α) :
      packets.flatten = rest →
      Mirrors ending (.ok x (.buffer position rest)) (.ok x (.stream position packets ending))

  | error {e : Error} {s t : Source} : e.OffStream → s.position = t.position →
      Mirrors ending (.error e s) (.error (e.onStream ending) t)

section Mirrors

variable {r r' : EStateM.Result Error Source α} {fault : String}

end Mirrors

/-- The step runs on every stream as it does on the buffer with the bytes of all packets. -/
def Portable (ending : Ending) (step : Decoder α) : Prop :=
  ∀ position packets, Mirrors ending (step (.buffer position packets.flatten))
    (step (.stream position packets ending))

theorem portable_pure (x : α) : Portable ending (pure x) := fun _ _ => .ok x rfl

theorem portable_throw {e : Error} (h : e.OffStream) (same : e.onStream ending = e) :
    Portable ending (throw e : Decoder α) := by
  intro position packets
  have ends : Mirrors (α := α) ending (.error e (.buffer position packets.flatten))
      (.error (e.onStream ending) (.stream position packets ending)) := .error h rfl
  rwa [same] at ends

theorem Portable.bind {step : Decoder α} {next : α → Decoder β} (h : Portable ending step)
    (rest : ∀ x, Portable ending (next x)) : Portable ending (step >>= next) := by
  intro position packets
  show Mirrors ending (EStateM.bind step next _) (EStateM.bind step next _)
  unfold EStateM.bind
  have first := h position packets
  revert first
  generalize step (.buffer position packets.flatten) = r
  generalize step (.stream position packets ending) = r'
  intro first
  cases first with
  | ok x same =>
    subst same
    exact rest x _ _
  | error apart positions => exact .error apart positions

theorem portable_position : Portable ending position := fun _ _ => .ok _ rfl

theorem portable_read (n : Nat) : Portable ending (ofReader (Source.read n)) := by
  intro position packets
  have taken := map_takePackets n packets
  unfold ofReader
  by_cases enough : n ≤ packets.flatten.length
  · rw [if_pos enough] at taken
    obtain ⟨⟨bytes, left⟩, found, same⟩ := Option.map_eq_some_iff.mp taken
    obtain ⟨rfl, flat⟩ := Prod.mk.inj same
    have whole : (packets.flatten.take n).length = n := List.length_take_of_le enough
    simp only [Source.read, found, whole, ↓reduceIte]
    exact .ok _ flat
  · rw [if_neg enough, Option.map_eq_none_iff] at taken
    have cut : (packets.flatten.take n).length ≠ n := by
      rw [List.length_take]
      omega
    simp only [Source.read, taken, cut, ↓reduceIte]
    cases ending with
    | finished => exact .error (e := .wire (.endOfBuffer position)) trivial rfl
    | failing fault => exact .error (e := .wire (.endOfBuffer position)) trivial rfl

theorem ofReader_bind (reader : Reader α) (next : α → Reader β) :
    ofReader (reader >>= next) = ofReader reader >>= fun x => ofReader (next x) := by
  funext s
  show ofReader (EStateM.bind reader next) s = EStateM.bind (ofReader reader) _ s
  unfold ofReader EStateM.bind
  cases h : reader s <;> simp only [h]

theorem portable_ofExcept {result : Except WireError α}
    (h : ∀ e, result = .error e → ∃ word, e = .notCharacter word) :
    Portable ending (ofReader (Reader.ofExcept result)) := by
  cases result with
  | ok x => exact portable_pure x
  | error e =>
    obtain ⟨word, rfl⟩ := h e rfl
    exact portable_throw (e := .wire (.notCharacter word)) trivial rfl

theorem portable_scalar (k : Scalar) : Portable ending (ofReader (Reader.scalar k)) := by
  rw [Reader.scalar, ofReader_bind]
  exact (portable_read _).bind fun bytes => portable_ofExcept fun _ => k.ofWord_error

theorem portable_block (count width : Nat) :
    Portable ending (ofReader (Reader.block count width)) := by
  unfold Reader.block
  split
  · exact portable_read _
  · exact portable_throw (e := .wire (.runOverflow count)) trivial rfl

theorem portable_array (k : Scalar) (count : Nat) :
    Portable ending (ofReader (Reader.array k count)) := by
  rw [Reader.array, ofReader_bind]
  exact (portable_block _ _).bind fun bytes => portable_ofExcept fun _ => k.ofWords_error

theorem portable_count (counted : Counted) (limit : Nat) :
    Portable ending (count counted limit) := by
  refine portable_position.bind fun offset => (portable_scalar .int32).bind fun raw => ?_
  split
  · exact portable_throw trivial rfl
  · dsimp only
    split
    · exact portable_throw trivial rfl
    · exact portable_pure _

theorem portable_text (limit : Nat) : Portable ending (text limit) := by
  refine (portable_count .string limit).bind fun length =>
    (portable_block length 1).bind fun bytes => ?_
  split
  · exact portable_pure _
  · exact portable_throw trivial rfl

theorem Portable.times {step : Decoder α} (h : Portable ending step) (n : Nat) :
    Portable ending (Decoder.times step n) := by
  induction n with
  | zero => exact portable_pure []
  | succ n ih => exact h.bind fun x => ih.bind fun xs => portable_pure (x :: xs)

end Decoder

namespace Plan

open Decoder

variable {ending : Ending} {limits : Limits}

theorem portable_decodeFields {fields : List (String × Plan)}
    (h : ∀ p ∈ fields, Portable ending (decode limits p.2)) :
    Portable ending (decodeFields limits fields) := by
  induction fields with
  | nil =>
    rw [decodeFields]
    exact portable_pure []
  | cons field rest ih =>
    obtain ⟨name, plan⟩ := field
    obtain ⟨head, tail⟩ := List.forall_mem_cons.mp h
    rw [decodeFields]
    exact head.bind fun v => (ih tail).bind fun vs => portable_pure _

/-- Every plan reads streams as it reads buffers. -/
theorem portable_decode (plan : Plan) : Portable ending (decode limits plan) := by
  induction plan with
  | scalar k =>
    rw [decode]
    exact (portable_scalar k).bind fun x => portable_pure _
  | text =>
    rw [decode]
    exact (portable_text limits.maxText).bind fun s => portable_pure _
  | bulk k =>
    rw [decode]
    exact (portable_count .sequence limits.maxSequence).bind fun count =>
      (portable_array k count).bind fun xs => portable_pure _
  | elements element ih =>
    rw [decode]
    exact (portable_count .sequence limits.maxSequence).bind fun count =>
      (ih.times count).bind fun items => portable_pure _
  | record typeName fields ih =>
    rw [decode]
    exact (portable_decodeFields ih).bind fun values => portable_pure _

end Plan

namespace Codec

open Decoder

end Codec

end SchemaCodec
