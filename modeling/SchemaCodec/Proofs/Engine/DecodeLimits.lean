import SchemaCodec.Proofs.Engine.Coherence
import SchemaCodec.Proofs.Plan.Counts

/-! # Limits at every depth

A coding holds every count against the limits of its engine, wherever the count stands. So whatever
is decoded is within the limits, and a refused count is the last thing that is read.
-/

namespace SchemaCodec.Engine

open Plan

variable {C : Catalog} {limits : Limits} {e : Engine} {name : String} {c : Codec}

/-- In every reachable engine, what a coding decodes from any source is within the limits at every
depth. As soon as it reads a count that is negative or above its limit, decoding fails for invalid
data right behind the count, where nothing that it counts has been read; and it refuses no other
count. -/
theorem decode_limits (reached : Reachable C limits e) (held : e.compiled.get? name = some c) :
    (∀ s v t, c.decode s = .ok v t → v.Within limits) ∧
    (∀ s q s' counted limit raw t, c.plan.Enters limits s q s' →
      q.counted? limits = some (counted, limit) → Reader.scalar .int32 s' = .ok raw t →
      (t.position = s'.position + countSize ∧ t.unread = s'.unread.drop countSize) ∧
      (raw.toInt < 0 → c.decode s =
        .error (.malformed (.negativeCount counted raw.toInt s'.position)) t) ∧
      (limit < raw.toInt → c.decode s =
        .error (.malformed (.countOverLimit counted raw.toInt.toNat s'.position limit)) t)) ∧
    ∀ s err t, c.decode s = .error err t → err.OfCount →
      ∃ q s' counted limit raw, c.plan.Enters limits s q s' ∧
        q.counted? limits = some (counted, limit) ∧ Reader.scalar .int32 s' = .ok raw t ∧
        (raw.toInt < 0 ∨ limit < raw.toInt) := by
  obtain rfl : c.limits = limits := (reached.sound.codec name c held).limits_eq
  refine ⟨?_, ?_, ?_⟩
  · intro s v t decoded
    obtain ⟨piece, -, read⟩ := reads_of_decode decoded
    exact within_of_reads read
  · intro s q s' counted limit raw t enters begins read
    refine ⟨Reader.scalar_eq_ok read, fun negative => ?_, fun large => ?_⟩
    · exact enters.decode_error (decode_error_of_count begins (Decoder.count_negative read negative))
    · exact enters.decode_error (decode_error_of_count begins (Decoder.count_overLimit read large))
  · intro s err t failed ofCount
    obtain ⟨q, s', counted, limit, enters, begins, refused⟩ := exists_enters failed ofCount
    obtain ⟨raw, read, outside⟩ := Decoder.exists_raw refused ofCount
    exact ⟨q, s', counted, limit, raw, enters, begins, read, outside⟩

/-- At most two elements may be read: three in a run within the only element of a list are refused
after their count. -/
theorem decode_limits_nested : ∃ e c,
    Reachable ⟨fun _ => ⟨[], true, .declared⟩, 0⟩ ⟨2, 9⟩ e ∧ e.compiled.get? "P" = some c ∧
    c.decode (.ofBytes [1, 0, 0, 0, 3, 0, 0, 0, 7, 8, 9]) =
      .error (.malformed (.countOverLimit .sequence 3 4 2)) (.buffer 8 [7, 8, 9]) := by
  let schema : Schema := ⟨"P", 0,
    [.mk none "R" [.member "run" "Int8[]"], .mk none "P" [.member "items" "R[]"]]⟩
  have planned : (after [.codecOfSchema schema]
      (fresh ⟨fun _ => ⟨[], true, .declared⟩, 0⟩ ⟨2, 9⟩)).plan? "P" =
        some (.record "P"
          ([] ++ [("items", .elements (.record "R" ([] ++ [("run", .bulk .int8)])))])) := by
    decide +kernel
  obtain ⟨typeName, found⟩ := Reachable.exists_codec ⟨_, rfl⟩ planned
  have run : Enters ⟨2, 9⟩ (.record "R" ([] ++ [("run", .bulk .int8)]))
      (.buffer 4 [3, 0, 0, 0, 7, 8, 9]) (.bulk .int8) (.buffer 4 [3, 0, 0, 0, 7, 8, 9]) :=
    .member rfl (.here _ _)
  have refused := (decode_limits ⟨_, rfl⟩ found).2.1 (.ofBytes [1, 0, 0, 0, 3, 0, 0, 0, 7, 8, 9])
    _ _ _ _ 3 (.buffer 8 [7, 8, 9]) (.member rfl (.element rfl Nat.zero_lt_one rfl run)) rfl rfl
  exact ⟨_, _, ⟨_, rfl⟩, found, refused.2.2 (by decide)⟩

end SchemaCodec.Engine
