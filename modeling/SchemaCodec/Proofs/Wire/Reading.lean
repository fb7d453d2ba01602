import Mathlib.Data.List.Forall2
import SchemaCodec.Plan.Decode

/-! # What is read from buffers

A step on a buffer is told by the pieces that it takes from the front and what it makes of them;
whatever follows a piece stays in the buffer.
-/

namespace SchemaCodec

namespace Source

variable {ε α β : Type}

/-- On every buffer, the step ends in a value exactly if a piece at the front stands for the value,
and then it leaves what follows. -/
def Accepts (step : EStateM ε Source α) (T : List UInt8 → α → Prop) : Prop :=
  ∀ position bytes x s, step (.buffer position bytes) = .ok x s ↔
    ∃ piece rest, bytes = piece ++ rest ∧ s = .buffer (position + piece.length) rest ∧ T piece x

theorem Accepts.congr {step : EStateM ε Source α} {T T' : List UInt8 → α → Prop}
    (h : Accepts step T) (same : ∀ piece x, T piece x ↔ T' piece x) : Accepts step T' := by
  intro position bytes x s
  simp only [h position bytes x s, same]

theorem accepts_pure (x : α) :
    Accepts (pure x : EStateM ε Source α) fun piece y => piece = [] ∧ y = x := by
  intro position bytes y s
  constructor
  · rintro ⟨⟩
    exact ⟨[], bytes, rfl, rfl, rfl, rfl⟩
  · rintro ⟨_, rest, rfl, rfl, rfl, rfl⟩
    rfl

theorem accepts_throw (e : ε) :
    Accepts (throw e : EStateM ε Source α) fun _ _ => False := by
  intro position bytes y s
  constructor
  · intro h
    cases h
  · rintro ⟨_, _, -, -, ⟨⟩⟩

theorem run_bind {step : EStateM ε Source α} {next : α → EStateM ε Source β} {s t : Source}
    {y : β} : (step >>= next) s = .ok y t ↔ ∃ x s', step s = .ok x s' ∧ next x s' = .ok y t := by
  show EStateM.bind step next s = _ ↔ _
  unfold EStateM.bind
  cases h : step s with
  | ok x s' =>
    constructor
    · intro h'
      exact ⟨x, s', rfl, h'⟩
    · rintro ⟨_, _, ⟨⟩, h'⟩
      exact h'
  | error e s' =>
    constructor
    · intro h'
      cases h'
    · rintro ⟨_, _, no, -⟩
      cases no

theorem Accepts.bind {step : EStateM ε Source α} {next : α → EStateM ε Source β}
    {T : List UInt8 → α → Prop} {U : α → List UInt8 → β → Prop} (h : Accepts step T)
    (h' : ∀ x, Accepts (next x) (U x)) :
    Accepts (step >>= next) fun piece y =>
      ∃ front back x, piece = front ++ back ∧ T front x ∧ U x back y := by
  intro position bytes y t
  rw [run_bind]
  constructor
  · rintro ⟨x, s, first, second⟩
    obtain ⟨front, _, rfl, rfl, hx⟩ := (h _ _ _ _).mp first
    obtain ⟨back, rest, rfl, rfl, hy⟩ := (h' x _ _ _ _).mp second
    refine ⟨front ++ back, rest, (List.append_assoc ..).symm, ?_, front, back, x, rfl, hx, hy⟩
    rw [List.length_append, Nat.add_assoc]
  · rintro ⟨_, rest, rfl, rfl, front, back, x, rfl, hx, hy⟩
    refine ⟨x, .buffer (position + front.length) (back ++ rest), (h _ _ _ _).mpr ?_,
      (h' x _ _ _ _).mpr ?_⟩
    · exact ⟨front, back ++ rest, List.append_assoc .., rfl, hx⟩
    · refine ⟨back, rest, rfl, ?_, hy⟩
      rw [List.length_append, Nat.add_assoc]

/-- A piece at the front of a buffer is read, whatever follows it. -/
theorem Accepts.run {step : EStateM ε Source α} {T : List UInt8 → α → Prop} (h : Accepts step T)
    {piece : List UInt8} {x : α} (hx : T piece x) (position : Nat) (rest : List UInt8) :
    step (.buffer position (piece ++ rest)) = .ok x (.buffer (position + piece.length) rest) :=
  (h _ _ _ _).mpr ⟨piece, rest, rfl, rfl, hx⟩

theorem accepts_read (n : Nat) : Accepts (read n) fun piece x => piece.length = n ∧ x = piece := by
  intro position bytes x s
  rw [read]
  dsimp only
  constructor
  · intro h
    split at h
    · next enough =>
      obtain ⟨rfl, rfl⟩ := EStateM.Result.ok.inj h
      refine ⟨bytes.take n, bytes.drop n, (List.take_append_drop n bytes).symm, ?_, enough, rfl⟩
      rw [enough]
    · cases h
  · rintro ⟨piece, rest, rfl, rfl, rfl, rfl⟩
    rw [List.take_left, if_pos rfl, List.drop_left]

end Source

open Source

def Scalar.Reads (k : Scalar) (piece : List UInt8) (x : k.Carrier) : Prop :=
  piece.length = k.width ∧ k.ofWord? (LittleEndian.join piece) = some x

theorem Scalar.reads_toBytes (k : Scalar) (x : k.Carrier) : k.Reads (k.toBytes x) x :=
  ⟨k.length_toBytes x, k.ofWord?_join_toBytes x⟩

theorem Scalar.reads_run (k : Scalar) (xs : List k.Carrier) :
    List.Forall₂ k.Reads (xs.map k.toBytes) xs := by
  induction xs with
  | nil => exact .nil
  | cons x xs ih => exact .cons (k.reads_toBytes x) ih

namespace LittleEndian

theorem join_lt (bytes : List UInt8) : join bytes < capacity bytes.length := by
  induction bytes with
  | nil => exact Nat.zero_lt_one
  | cons b bs ih =>
    have low := b.toNat_lt
    rw [join, List.length_cons, capacity]
    omega

theorem split_join (bytes : List UInt8) : split bytes.length (join bytes) = bytes := by
  induction bytes with
  | nil => rfl
  | cons b bs ih =>
    have low := b.toNat_lt
    have first : UInt8.ofNat (b.toNat + 256 * join bs) = b := by
      rw [← UInt8.toNat_inj, UInt8.toNat_ofNat']
      omega
    have others : (b.toNat + 256 * join bs) / 256 = join bs := by omega
    rw [List.length_cons, join, split, first, others, ih]

end LittleEndian

namespace Reader

theorem accepts_ofExcept {α : Type} (outcome : Except WireError α) :
    Accepts (ofExcept outcome) fun piece x => piece = [] ∧ outcome = .ok x := by
  cases outcome with
  | ok x => exact (accepts_pure x).congr fun piece y => by simp [eq_comm]
  | error e => exact (accepts_throw e).congr fun piece y => by simp

theorem ofWord_eq_ok {k : Scalar} {n : Nat} {x : k.Carrier} :
    k.ofWord n = .ok x ↔ k.ofWord? n = some x := by
  unfold Scalar.ofWord
  cases k.ofWord? n with
  | none => simp
  | some y => simp

theorem accepts_scalar (k : Scalar) : Accepts (scalar k) k.Reads := by
  refine ((accepts_read k.width).bind fun bytes => accepts_ofExcept _).congr fun piece x => ?_
  simp only [ofWord_eq_ok]
  constructor
  · rintro ⟨front, _, _, rfl, ⟨length, rfl⟩, rfl, hx⟩
    rw [List.append_nil]
    exact ⟨length, hx⟩
  · rintro ⟨length, hx⟩
    exact ⟨piece, [], piece, (List.append_nil piece).symm, ⟨length, rfl⟩, rfl, hx⟩

theorem accepts_block (count width : Nat) :
    Accepts (block count width) fun piece x =>
      count * width < wordBound ∧ piece.length = count * width ∧ x = piece := by
  unfold block
  split
  · next small => exact (accepts_read _).congr fun piece x => by simp [small]
  · next large => exact (accepts_throw _).congr fun piece x => by simp [large]

theorem ofWords_eq_ok {k : Scalar} {count : Nat} {bytes : List UInt8} {xs : List k.Carrier}
    (length : bytes.length = count * k.width) :
    k.ofWords (LittleEndian.words k.width count bytes) = .ok xs ↔
      ∃ pieces, bytes = pieces.flatten ∧ xs.length = count ∧
        List.Forall₂ k.Reads pieces xs := by
  induction count generalizing bytes xs with
  | zero =>
    obtain rfl : bytes = [] := List.length_eq_zero_iff.mp (by omega)
    constructor
    · rintro ⟨⟩
      exact ⟨[], rfl, rfl, .nil⟩
    · rintro ⟨pieces, -, none, -⟩
      rw [List.length_eq_zero_iff.mp none]
      rfl
  | succ count ih =>
    have whole : k.width ≤ bytes.length := by rw [length, Nat.succ_mul]; omega
    have rest : (bytes.drop k.width).length = count * k.width := by
      rw [List.length_drop, length, Nat.succ_mul]; omega
    rw [LittleEndian.words, Scalar.ofWords]
    constructor
    · intro h
      split at h
      · cases h
      · next x hx =>
        cases hxs : k.ofWords (LittleEndian.words k.width count (bytes.drop k.width)) with
        | error e => rw [hxs] at h; cases h
        | ok ys =>
          rw [hxs] at h
          obtain rfl := Except.ok.inj h
          obtain ⟨pieces, split, count_eq, all⟩ := (ih rest).mp hxs
          refine ⟨bytes.take k.width :: pieces, ?_, congrArg Nat.succ count_eq, .cons ?_ all⟩
          · rw [List.flatten_cons, ← split, List.take_append_drop]
          · exact ⟨List.length_take_of_le whole, ofWord_eq_ok.mp hx⟩
    · rintro ⟨_, rfl, count_eq, all⟩
      cases all with
      | nil => cases count_eq
      | @cons piece x pieces ys head all =>
        obtain ⟨width_eq, hx⟩ := head
        rw [List.flatten_cons] at rest ⊢
        rw [← width_eq, List.take_left, List.drop_left, ofWord_eq_ok.mpr hx]
        rw [← width_eq, List.drop_left, width_eq] at rest
        dsimp only
        rw [width_eq, (ih rest).mpr ⟨pieces, rfl, Nat.succ.inj count_eq, all⟩]
        rfl

theorem accepts_array (k : Scalar) (count : Nat) :
    Accepts (array k count) fun piece xs =>
      count * k.width < wordBound ∧ ∃ pieces, piece = pieces.flatten ∧ xs.length = count ∧
        List.Forall₂ k.Reads pieces xs := by
  refine ((accepts_block count k.width).bind fun bytes => accepts_ofExcept _).congr
    fun piece xs => ?_
  constructor
  · rintro ⟨front, _, _, rfl, ⟨small, length, rfl⟩, rfl, h⟩
    rw [List.append_nil]
    exact ⟨small, (ofWords_eq_ok length).mp h⟩
  · rintro ⟨small, pieces, rfl, count_eq, all⟩
    have length : pieces.flatten.length = count * k.width := by
      rw [← count_eq]
      clear count_eq small
      induction all with
      | nil => simp
      | cons head _ ih =>
        rw [List.flatten_cons, List.length_append, ih, head.1, List.length_cons, Nat.succ_mul,
          Nat.add_comm]
    exact ⟨_, [], _, (List.append_nil _).symm, ⟨small, length, rfl⟩, rfl,
      (ofWords_eq_ok length).mpr ⟨pieces, rfl, count_eq, all⟩⟩

end Reader

namespace Decoder

variable {α : Type}

theorem accepts_ofReader {reader : Reader α} {T : List UInt8 → α → Prop} (h : Accepts reader T) :
    Accepts (ofReader reader) T := by
  intro position bytes x s
  rw [← h position bytes x s, ofReader]
  cases reader (.buffer position bytes) with
  | ok y t => simp
  | error e t => simp

theorem accepts_position {next : Nat → Decoder α} {T : List UInt8 → α → Prop}
    (h : ∀ n, Accepts (next n) T) : Accepts (position >>= next) T :=
  fun position => h position position

theorem accepts_times {decoder : Decoder α} {T : List UInt8 → α → Prop} (h : Accepts decoder T)
    (n : Nat) :
    Accepts (times decoder n) fun piece xs => xs.length = n ∧
      ∃ pieces, List.Forall₂ T pieces xs ∧ piece = pieces.flatten := by
  induction n with
  | zero =>
    refine (accepts_pure []).congr fun piece xs => ?_
    constructor
    · rintro ⟨rfl, rfl⟩
      exact ⟨rfl, [], .nil, rfl⟩
    · rintro ⟨none, pieces, all, rfl⟩
      obtain rfl := List.length_eq_zero_iff.mp none
      cases all
      exact ⟨rfl, rfl⟩
  | succ n ih =>
    rw [times]
    refine (h.bind fun x => ih.bind fun xs => accepts_pure (x :: xs)).congr fun piece xs => ?_
    constructor
    · rintro ⟨front, _, x, rfl, hx, back, _, xs, rfl, ⟨rfl, pieces, all, rfl⟩, rfl, rfl⟩
      refine ⟨rfl, front :: pieces, .cons hx all, ?_⟩
      rw [List.append_nil, List.flatten_cons]
    · rintro ⟨count, _, all, rfl⟩
      cases all with
      | nil => cases count
      | cons hx all =>
        refine ⟨_, _, _, rfl, hx, _, [], _, (List.append_nil _).symm,
          ⟨Nat.succ.inj count, _, all, rfl⟩, rfl, rfl⟩

end Decoder

end SchemaCodec
