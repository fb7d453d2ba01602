import SchemaCodec.Proofs.Plan.Normal
import SchemaCodec.Proofs.Text.Canonical
import SchemaCodec.Proofs.Wire.Delimited
import SchemaCodec.Proofs.Wire.Streams

/-! # Counts met while decoding

Decoding a plan comes to the plans inside of it one after the other, each at the source that the
steps before it have left. A plan that begins with a count ends the whole decoding there if the
count is refused, and what is decoded in the end has no sequence or text whose count was not
accepted.
-/

namespace SchemaCodec

theorem Source.run_bind_error {ε α β : Type} {step : EStateM ε Source α}
    {next : α → EStateM ε Source β} {s t : Source} {e : ε} :
    (step >>= next) s = .error e t ↔
      step s = .error e t ∨ ∃ x s', step s = .ok x s' ∧ next x s' = .error e t := by
  cases first : step s with
  | ok x s' =>
    rw [bind_of_ok first]
    simp
  | error e' s' =>
    rw [bind_of_error first]
    simp

theorem Source.read_eq_ok {n : Nat} {s t : Source} {bytes : List UInt8}
    (h : Source.read n s = .ok bytes t) :
    n ≤ s.unread.length ∧ t.position = s.position + n ∧ t.unread = s.unread.drop n := by
  cases s with
  | buffer position rest =>
    rw [read] at h
    split at h
    · next enough =>
      obtain ⟨-, rfl⟩ := EStateM.Result.ok.inj h
      rw [List.length_take] at enough
      exact ⟨show n ≤ rest.length by omega, rfl, rfl⟩
    · cases h
  | stream position packets ending =>
    rw [read.eq_def] at h
    dsimp only at h
    split at h
    · next found =>
      obtain ⟨-, rfl⟩ := EStateM.Result.ok.inj h
      have taken := map_takePackets n packets
      rw [found] at taken
      split at taken
      · next enough => exact ⟨enough, rfl, (Prod.mk.inj (Option.some.inj taken)).2⟩
      · cases taken
    · cases h

namespace Reader

variable {s t : Source}

theorem scalar_eq_ok {k : Scalar} {x : k.Carrier} (h : scalar k s = .ok x t) :
    t.position = s.position + k.width ∧ t.unread = s.unread.drop k.width := by
  obtain ⟨bytes, s', taken, word⟩ := Source.run_bind.mp h
  unfold ofExcept at word
  split at word
  · obtain ⟨-, rfl⟩ := EStateM.Result.ok.inj word
    exact (Source.read_eq_ok taken).2
  · cases word

theorem block_le {count width : Nat} {bytes : List UInt8} (h : block count width s = .ok bytes t) :
    count * width ≤ s.unread.length := by
  unfold block at h
  split at h
  · exact (Source.read_eq_ok h).1
  · cases h

end Reader

inductive Error.OfCount : Error → Prop

  | negative (counted : Counted) (count : Int) (offset : Nat) :
      OfCount (.malformed (.negativeCount counted count offset))

  | overLimit (counted : Counted) (count offset limit : Nat) :
      OfCount (.malformed (.countOverLimit counted count offset limit))

namespace Decoder

variable {counted : Counted} {limit : Nat} {s t : Source} {raw : Int32}

theorem ofReader_eq_ok {α : Type} {reader : Reader α} {x : α} :
    ofReader reader s = .ok x t ↔ reader s = .ok x t := by
  rw [ofReader]
  cases reader s with
  | ok y u => simp
  | error e u => simp

theorem count_run (read : Reader.scalar .int32 s = .ok raw t) :
    count counted limit s =
      (if raw.toInt < 0 then throw (.malformed (.negativeCount counted raw.toInt s.position))
      else if limit < raw.toInt.toNat then
        throw (.malformed (.countOverLimit counted raw.toInt.toNat s.position limit))
      else pure raw.toInt.toNat : Decoder Nat) t := by
  exact Source.bind_of_ok (ofReader_eq_ok.mpr read)

theorem count_negative (read : Reader.scalar .int32 s = .ok raw t) (negative : raw.toInt < 0) :
    count counted limit s =
      .error (.malformed (.negativeCount counted raw.toInt s.position)) t := by
  rw [count_run read, if_pos negative]
  rfl

theorem count_overLimit (read : Reader.scalar .int32 s = .ok raw t) (large : limit < raw.toInt) :
    count counted limit s =
      .error (.malformed (.countOverLimit counted raw.toInt.toNat s.position limit)) t := by
  rw [count_run read, if_neg (by omega), if_pos (by omega)]
  rfl

theorem not_ofCount_ofReader {α : Type} {reader : Reader α} {e : Error}
    (h : ofReader reader s = .error e t) : ¬ e.OfCount := by
  unfold ofReader at h
  split at h
  · cases h
  · cases h
    rintro ⟨⟩

theorem exists_raw {e : Error} (h : count counted limit s = .error e t) (ofCount : e.OfCount) :
    ∃ raw, Reader.scalar .int32 s = .ok raw t ∧ (raw.toInt < 0 ∨ limit < raw.toInt) := by
  rcases read : Reader.scalar .int32 s with ⟨raw, t'⟩ | ⟨fault, t'⟩
  · rw [count_run read] at h
    refine ⟨raw, ?_⟩
    split at h
    · next negative =>
      obtain ⟨-, rfl⟩ := EStateM.Result.error.inj h
      exact ⟨rfl, .inl negative⟩
    · split at h
      · next large =>
        obtain ⟨-, rfl⟩ := EStateM.Result.error.inj h
        exact ⟨rfl, .inr (by omega)⟩
      · cases h
  · have read' : ofReader (Reader.scalar .int32) s = .error (.wire fault) t' := by
      rw [ofReader, read]
    have failed : count counted limit s = .error (.wire fault) t' :=
      (Source.bind_of_ok rfl).trans (Source.bind_of_error read')
    cases h.symm.trans failed
    cases ofCount

end Decoder

namespace Plan

variable {limits : Limits} {p q : Plan} {s t t' : Source} {e : Error} {counted : Counted}
  {limit : Nat} {v : Value} {piece : List UInt8}

/-- What the count at the beginning of a plan counts, with the limit that it is held against. -/
def counted? (limits : Limits) : Plan → Option (Counted × Nat)
  | scalar _ => none
  | text => some (.string, limits.maxText)
  | bulk _ => some (.sequence, limits.maxSequence)
  | elements _ => some (.sequence, limits.maxSequence)
  | record _ _ => none

/-- Decoding the first plan from the first source comes to decoding the second from the second:
everything before has been read, and the count of every sequence that is not finished was
accepted. -/
inductive Enters (limits : Limits) : Plan → Source → Plan → Source → Prop

  | here (p : Plan) (s : Source) : Enters limits p s p s

  | element {element q : Plan} {s s₁ s₂ t : Source} {n i : Nat} {items : List Value} :
      Decoder.count .sequence limits.maxSequence s = .ok n s₁ → i < n →
      Decoder.times (decode limits element) i s₁ = .ok items s₂ →
      Enters limits element s₂ q t → Enters limits (.elements element) s q t

  | member {typeName name : String} {before after : List (String × Plan)} {p q : Plan}
      {s s₁ t : Source} {values : List (String × Value)} :
      decodeFields limits before s = .ok values s₁ →
      Enters limits p s₁ q t →
      Enters limits (.record typeName (before ++ (name, p) :: after)) s q t

/-! ## A refused count ends everything -/

theorem times_error {α : Type} {decoder : Decoder α} {n i : Nat} {xs : List α} {s₁ s₂ : Source}
    (read : Decoder.times decoder i s₁ = .ok xs s₂) (less : i < n)
    (failed : decoder s₂ = .error e t) : Decoder.times decoder n s₁ = .error e t := by
  induction i generalizing n xs s₁ with
  | zero =>
    obtain ⟨n, rfl⟩ := Nat.exists_eq_succ_of_ne_zero (Nat.ne_of_gt less)
    obtain ⟨-, rfl⟩ := EStateM.Result.ok.inj read
    exact Source.bind_of_error failed
  | succ i ih =>
    obtain ⟨n, rfl⟩ := Nat.exists_eq_succ_of_ne_zero (Nat.ne_of_gt (Nat.zero_lt_of_lt less))
    obtain ⟨x, s', head, rest⟩ := Source.run_bind.mp read
    obtain ⟨others, s'', tail, ended⟩ := Source.run_bind.mp rest
    obtain ⟨-, rfl⟩ := EStateM.Result.ok.inj ended
    have failed' := ih tail (Nat.lt_of_succ_lt_succ less)
    exact (Source.bind_of_ok head).trans (Source.bind_of_error failed')

theorem decodeFields_error {before after : List (String × Plan)} {name : String} {s₁ : Source}
    {values : List (String × Value)} (read : decodeFields limits before s = .ok values s₁)
    (failed : p.decode limits s₁ = .error e t) :
    decodeFields limits (before ++ (name, p) :: after) s = .error e t := by
  induction before generalizing s values with
  | nil =>
    rw [decodeFields] at read
    obtain ⟨-, rfl⟩ := EStateM.Result.ok.inj read
    rw [List.nil_append, decodeFields]
    exact Source.bind_of_error failed
  | cons field before ih =>
    obtain ⟨first, plan⟩ := field
    rw [decodeFields] at read
    obtain ⟨v, s', head, rest⟩ := Source.run_bind.mp read
    obtain ⟨others, s'', tail, ended⟩ := Source.run_bind.mp rest
    obtain ⟨-, rfl⟩ := EStateM.Result.ok.inj ended
    rw [List.cons_append, decodeFields]
    exact (Source.bind_of_ok head).trans (Source.bind_of_error (ih tail))

/-- Where a plan that decoding comes to fails, the whole decoding fails, with the same error at the
same source. -/
theorem Enters.decode_error (h : p.Enters limits s q t) (failed : q.decode limits t = .error e t') :
    p.decode limits s = .error e t' := by
  induction h with
  | here => exact failed
  | element counted less read _ ih =>
    rw [decode, Source.bind_of_ok counted]
    exact Source.bind_of_error (times_error read less (ih failed))
  | member read _ ih =>
    rw [decode]
    exact Source.bind_of_error (decodeFields_error read (ih failed))

theorem decode_error_of_count (begins : q.counted? limits = some (counted, limit))
    (failed : Decoder.count counted limit t = .error e t') :
    q.decode limits t = .error e t' := by
  cases q with
  | scalar k => cases begins
  | record typeName fields => cases begins
  | text =>
    obtain ⟨rfl, rfl⟩ := Prod.mk.inj (Option.some.inj begins)
    rw [decode]
    exact Source.bind_of_error (Source.bind_of_error failed)
  | bulk k =>
    obtain ⟨rfl, rfl⟩ := Prod.mk.inj (Option.some.inj begins)
    rw [decode]
    exact Source.bind_of_error failed
  | elements element =>
    obtain ⟨rfl, rfl⟩ := Prod.mk.inj (Option.some.inj begins)
    rw [decode]
    exact Source.bind_of_error failed

/-! ## Where counts are refused -/

theorem times_failure {α : Type} {decoder : Decoder α} {n : Nat}
    (h : Decoder.times decoder n s = .error e t) :
    ∃ i xs s', i < n ∧ Decoder.times decoder i s = .ok xs s' ∧ decoder s' = .error e t := by
  induction n generalizing s with
  | zero => cases h
  | succ n ih =>
    rcases Source.run_bind_error.mp h with failed | ⟨x, s₁, head, rest⟩
    · exact ⟨0, [], s, Nat.succ_pos n, rfl, failed⟩
    · rcases Source.run_bind_error.mp rest with failed | ⟨_, _, _, no⟩
      · obtain ⟨i, xs, s', less, tail, last⟩ := ih failed
        refine ⟨i + 1, x :: xs, s', Nat.succ_lt_succ less, ?_, last⟩
        exact (Source.bind_of_ok head).trans ((Source.bind_of_ok tail).trans rfl)
      · cases no

theorem decodeFields_failure {fields : List (String × Plan)}
    (h : decodeFields limits fields s = .error e t) :
    ∃ before name p after values s', fields = before ++ (name, p) :: after ∧
      decodeFields limits before s = .ok values s' ∧ p.decode limits s' = .error e t := by
  induction fields generalizing s with
  | nil =>
    rw [decodeFields] at h
    cases h
  | cons field fields ih =>
    obtain ⟨name, plan⟩ := field
    rw [decodeFields] at h
    rcases Source.run_bind_error.mp h with failed | ⟨v, s₁, head, rest⟩
    · refine ⟨[], name, plan, fields, [], s, rfl, ?_, failed⟩
      rw [decodeFields]
      rfl
    · rcases Source.run_bind_error.mp rest with failed | ⟨_, _, _, no⟩
      · obtain ⟨before, name', p, after, values, s', rfl, tail, last⟩ := ih failed
        refine ⟨(name, plan) :: before, name', p, after, (name, v) :: values, s', rfl, ?_, last⟩
        rw [decodeFields]
        exact (Source.bind_of_ok head).trans ((Source.bind_of_ok tail).trans rfl)
      · cases no

/-- Where decoding refuses a count, it has come to a plan that begins with that count. -/
theorem exists_enters (h : p.decode limits s = .error e t) (ofCount : e.OfCount) :
    ∃ q s' counted limit, p.Enters limits s q s' ∧ q.counted? limits = some (counted, limit) ∧
      Decoder.count counted limit s' = .error e t := by
  induction p generalizing s with
  | scalar k =>
    rw [decode] at h
    rcases Source.run_bind_error.mp h with failed | ⟨_, _, _, no⟩
    · exact absurd ofCount (Decoder.not_ofCount_ofReader failed)
    · cases no
  | text =>
    refine ⟨.text, s, .string, limits.maxText, .here _ _, rfl, ?_⟩
    rw [decode] at h
    rcases Source.run_bind_error.mp h with failed | ⟨_, _, _, no⟩
    · rcases Source.run_bind_error.mp failed with failed | ⟨_, _, _, failed⟩
      · exact failed
      · rcases Source.run_bind_error.mp failed with failed | ⟨bytes, _, _, failed⟩
        · exact absurd ofCount (Decoder.not_ofCount_ofReader failed)
        · cases decoded : Utf8.decode bytes with
          | ok s =>
            rw [decoded] at failed
            cases failed
          | error fault =>
            rw [decoded] at failed
            cases failed
            cases ofCount
    · cases no
  | bulk k =>
    refine ⟨.bulk k, s, .sequence, limits.maxSequence, .here _ _, rfl, ?_⟩
    rw [decode] at h
    rcases Source.run_bind_error.mp h with failed | ⟨_, _, _, failed⟩
    · exact failed
    · rcases Source.run_bind_error.mp failed with failed | ⟨_, _, _, no⟩
      · exact absurd ofCount (Decoder.not_ofCount_ofReader failed)
      · cases no
  | elements element ih =>
    rw [decode] at h
    rcases Source.run_bind_error.mp h with failed | ⟨n, s₁, counted, failed⟩
    · exact ⟨.elements element, s, .sequence, limits.maxSequence, .here _ _, rfl, failed⟩
    · rcases Source.run_bind_error.mp failed with failed | ⟨_, _, _, no⟩
      · obtain ⟨i, items, s₂, less, read, failed⟩ := times_failure failed
        obtain ⟨q, s', counted', limit, enters, begins, refused⟩ := ih failed
        exact ⟨q, s', counted', limit, .element counted less read enters, begins, refused⟩
      · cases no
  | record typeName fields ih =>
    rw [decode] at h
    rcases Source.run_bind_error.mp h with failed | ⟨_, _, _, no⟩
    · obtain ⟨before, name, p, after, values, s₁, rfl, read, failed⟩ := decodeFields_failure failed
      have mem : (name, p) ∈ before ++ (name, p) :: after :=
        List.mem_append_right before List.mem_cons_self
      obtain ⟨q, s', counted, limit, enters, begins, refused⟩ := ih _ mem failed
      exact ⟨q, s', counted, limit, .member read enters, begins, refused⟩
    · cases no

/-! ## What was decoded is within the limits -/

theorem within_of_readsFields {fields : List (String × Plan)} {values : List (String × Value)}
    (each : ∀ field ∈ fields, ∀ piece v, Reads limits field.2 piece v → v.Within limits)
    (h : ReadsFields limits fields piece values) : ∀ entry ∈ values, entry.2.Within limits := by
  induction fields generalizing piece values with
  | nil =>
    rw [ReadsFields] at h
    obtain ⟨-, rfl⟩ := h
    exact List.forall_mem_nil _
  | cons field rest ih =>
    obtain ⟨name, plan⟩ := field
    obtain ⟨head, tail⟩ := List.forall_mem_cons.mp each
    rw [ReadsFields] at h
    obtain ⟨front, back, w, others, rfl, rfl, first, later⟩ := h
    exact List.forall_mem_cons.mpr ⟨head front w first, ih tail later⟩

theorem within_of_reads (h : Reads limits p piece v) : v.Within limits := by
  induction p generalizing piece v with
  | scalar k =>
    rw [Reads] at h
    obtain ⟨x, rfl, -⟩ := h
    exact .scalar k x
  | text =>
    rw [Reads] at h
    obtain ⟨s, front, bytes, rfl, -, counted, decoded⟩ := h
    refine .text ?_
    rw [Utf8.encode_of_decode decoded]
    exact counted.1
  | bulk k =>
    rw [Reads] at h
    obtain ⟨xs, front, pieces, rfl, -, counted, -⟩ := h
    exact .array counted.1
  | elements element ih =>
    rw [Reads] at h
    obtain ⟨items, front, pieces, rfl, -, counted, all⟩ := h
    refine .list counted.1 fun w hw => ?_
    obtain ⟨front, -, read⟩ := partner_left all hw
    exact ih read
  | record typeName fields ih =>
    rw [Reads] at h
    obtain ⟨values, rfl, all⟩ := h
    refine .record fun entry mem => ?_
    exact within_of_readsFields (fun field hfield piece v => ih field hfield) all entry
      (Fields.mem_of_mem_ofList mem)

theorem reads_of_decode (h : p.decode limits s = .ok v t) :
    ∃ piece, s.unread = piece ++ t.unread ∧ Reads limits p piece v := by
  cases s with
  | buffer position bytes =>
    obtain ⟨piece, rest, rfl, rfl, read⟩ := (accepts_decode p _ _ _ _).mp h
    exact ⟨piece, rfl, read⟩
  | stream position packets ending =>
    have mirrored : Decoder.Mirrors ending (p.decode limits (.buffer position packets.flatten))
        (p.decode limits (.stream position packets ending)) := p.portable_decode position packets
    rw [h] at mirrored
    generalize run : p.decode limits (.buffer position packets.flatten) = r at mirrored
    cases mirrored with
    | ok x same =>
      obtain ⟨piece, rest, taken, ended, read⟩ := (accepts_decode p _ _ _ _).mp run
      obtain ⟨-, rfl⟩ := Source.buffer.inj ended
      exact ⟨piece, taken.trans (congrArg (piece ++ ·) same.symm), read⟩

end Plan

end SchemaCodec
