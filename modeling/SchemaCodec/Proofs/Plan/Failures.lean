import SchemaCodec.Proofs.Plan.Counts
import SchemaCodec.Proofs.Plan.Decode

/-! # How reading a buffer fails

A buffer can be too short, or hold what a plan does not take: a word that is no character, a count
that is negative or above its limit, bytes that are no UTF-8. Nothing else makes the reading of a
buffer fail. In particular the bytes of a run can always be counted, because its count was accepted.
-/

namespace SchemaCodec

/-- The bytes of a buffer are too few, or a word of them is no character. -/
inductive WireError.OfBytes : WireError → Prop

  | endOfBuffer (offset : Nat) : OfBytes (.endOfBuffer offset)

  | notCharacter (word : Nat) : OfBytes (.notCharacter word)

/-- The bytes of a buffer are at fault. -/
inductive Error.OfBytes : Error → Prop

  | wire {error : WireError} : error.OfBytes → OfBytes (.wire error)

  | count {error : Error} : error.OfCount → OfBytes error

  | notUtf8 (fault : Utf8.Fault) : OfBytes (.malformed (.notUtf8 fault))

namespace Source

variable {ε α β : Type} {R : ε → Prop}

/-- On buffers, the step fails with no other errors. -/
def FailsWith (R : ε → Prop) (step : EStateM ε Source α) : Prop :=
  ∀ position bytes e s, step (.buffer position bytes) = .error e s → R e

theorem failsWith_pure (x : α) : FailsWith R (pure x : EStateM ε Source α) := by
  intro position bytes e s no
  cases no

theorem failsWith_throw {e : ε} (h : R e) : FailsWith R (throw e : EStateM ε Source α) := by
  rintro position bytes _ _ ⟨⟩
  exact h

theorem FailsWith.bind {step : EStateM ε Source α} {next : α → EStateM ε Source β}
    {T : List UInt8 → α → Prop} (first : FailsWith R step) (accepts : Accepts step T)
    (rest : ∀ piece x, T piece x → FailsWith R (next x)) : FailsWith R (step >>= next) := by
  intro position bytes e s failed
  rcases run_bind_error.mp failed with early | ⟨x, m, run, late⟩
  · exact first position bytes e s early
  · obtain ⟨piece, left, rfl, rfl, taken⟩ := (accepts position bytes x m).mp run
    exact rest piece x taken _ _ e s late

theorem failsWith_read (n : Nat) : FailsWith WireError.OfBytes (read n) := by
  intro position bytes e s failed
  rw [read] at failed
  split at failed
  · cases failed
  · cases failed
    exact .endOfBuffer position

end Source

open Source

namespace Reader

theorem failsWith_ofExcept {α : Type} {outcome : Except WireError α}
    (h : ∀ e, outcome = .error e → ∃ word, e = .notCharacter word) :
    FailsWith WireError.OfBytes (ofExcept outcome) := by
  cases outcome with
  | ok x => exact failsWith_pure x
  | error e =>
    obtain ⟨word, rfl⟩ := h e rfl
    exact failsWith_throw (.notCharacter word)

theorem failsWith_scalar (k : Scalar) : FailsWith WireError.OfBytes (scalar k) :=
  (failsWith_read k.width).bind (accepts_read k.width) fun _ _ _ =>
    failsWith_ofExcept fun _ => k.ofWord_error

theorem failsWith_block {count width : Nat} (small : count * width < wordBound) :
    FailsWith WireError.OfBytes (block count width) := by
  rw [block, if_pos small]
  exact failsWith_read _

theorem failsWith_array {k : Scalar} {count : Nat} (small : count * k.width < wordBound) :
    FailsWith WireError.OfBytes (array k count) :=
  (failsWith_block small).bind (accepts_block count k.width) fun _ _ _ =>
    failsWith_ofExcept fun _ => k.ofWords_error

end Reader

namespace Decoder

variable {α : Type}

theorem failsWith_ofReader {reader : Reader α} (h : FailsWith WireError.OfBytes reader) :
    FailsWith Error.OfBytes (ofReader reader) := by
  intro position bytes e s failed
  unfold ofReader at failed
  split at failed
  · cases failed
  · next error t read =>
    cases failed
    exact .wire (h position bytes error _ read)

theorem failsWith_position {next : Nat → Decoder α}
    (h : ∀ n, FailsWith Error.OfBytes (next n)) : FailsWith Error.OfBytes (position >>= next) :=
  fun position => h position position

theorem failsWith_count (counted : Counted) (limit : Nat) :
    FailsWith Error.OfBytes (count counted limit) := by
  refine failsWith_position fun offset => (failsWith_ofReader (Reader.failsWith_scalar .int32)).bind
    (accepts_ofReader (Reader.accepts_scalar .int32)) fun _ raw _ => ?_
  split
  · exact failsWith_throw (.count (.negative counted _ offset))
  · dsimp only
    split
    · exact failsWith_throw (.count (.overLimit counted _ offset limit))
    · exact failsWith_pure _

theorem failsWith_text (limit : Nat) : FailsWith Error.OfBytes (text limit) := by
  refine (failsWith_count .string limit).bind (accepts_count .string limit) fun _ length counted =>
    (failsWith_ofReader (Reader.failsWith_block (counted.small (by decide)))).bind
      (accepts_ofReader (Reader.accepts_block length 1)) fun _ bytes _ => ?_
  split
  · exact failsWith_pure _
  · exact failsWith_throw (.notUtf8 _)

theorem failsWith_times {decoder : Decoder α} {T : List UInt8 → α → Prop}
    (h : FailsWith Error.OfBytes decoder) (accepts : Accepts decoder T) (n : Nat) :
    FailsWith Error.OfBytes (times decoder n) := by
  induction n with
  | zero => exact failsWith_pure []
  | succ n ih =>
    exact h.bind accepts fun _ x _ =>
      ih.bind (accepts_times accepts n) fun _ xs _ => failsWith_pure (x :: xs)

end Decoder

namespace Plan

open Decoder

variable {limits : Limits}

theorem failsWith_decodeFields {fields : List (String × Plan)}
    (h : ∀ p ∈ fields, FailsWith Error.OfBytes (decode limits p.2)) :
    FailsWith Error.OfBytes (decodeFields limits fields) := by
  induction fields with
  | nil =>
    rw [decodeFields]
    exact failsWith_pure []
  | cons field rest ih =>
    obtain ⟨name, plan⟩ := field
    obtain ⟨head, tail⟩ := List.forall_mem_cons.mp h
    have others : Accepts (decodeFields limits rest) (ReadsFields limits rest) :=
      accepts_decodeFields fun p _ => accepts_decode p.2
    rw [decodeFields]
    exact head.bind (accepts_decode plan) fun _ v _ =>
      (ih tail).bind others fun _ vs _ => failsWith_pure _

/-- Every plan fails to read a buffer only on its bytes. -/
theorem failsWith_decode (plan : Plan) : FailsWith Error.OfBytes (decode limits plan) := by
  induction plan with
  | scalar k =>
    rw [decode]
    exact (failsWith_ofReader (Reader.failsWith_scalar k)).bind
      (accepts_ofReader (Reader.accepts_scalar k)) fun _ x _ => failsWith_pure _
  | text =>
    rw [decode]
    exact (failsWith_text _).bind (accepts_text _) fun _ s _ => failsWith_pure _
  | bulk k =>
    rw [decode]
    exact (failsWith_count _ _).bind (accepts_count _ _) fun _ count counted =>
      (failsWith_ofReader (Reader.failsWith_array (counted.small k.width_le))).bind
        (accepts_ofReader (Reader.accepts_array k count)) fun _ xs _ => failsWith_pure _
  | elements element ih =>
    rw [decode]
    exact (failsWith_count _ _).bind (accepts_count _ _) fun _ count _ =>
      (failsWith_times ih (accepts_decode element) count).bind
        (accepts_times (accepts_decode element) count) fun _ items _ => failsWith_pure _
  | record typeName fields ih =>
    have values : Accepts (decodeFields limits fields) (ReadsFields limits fields) :=
      accepts_decodeFields fun p _ => accepts_decode p.2
    rw [decode]
    exact (failsWith_decodeFields ih).bind values fun _ vs _ => failsWith_pure _

end Plan

end SchemaCodec
