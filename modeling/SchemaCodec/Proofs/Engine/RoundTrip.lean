import SchemaCodec.Proofs.Engine.ExactSize
import SchemaCodec.Proofs.Plan.Normal

/-! # Reading values back

What a coding writes it reads back as the normal form of the value, whatever follows the bytes.
-/

namespace SchemaCodec

theorem Codec.decode_of_writes {c : Codec} {v : Value} {bytes : List UInt8}
    (written : c.Writes v bytes) (within : v.Within c.limits) (rest : List UInt8) :
    c.decode (.ofBytes (bytes ++ rest)) =
      .ok (c.plan.normalize v) (.buffer bytes.length rest) := by
  have read := (Plan.accepts_decode c.plan).run
    (Plan.reads_normalize (Codec.writes_iff.mp written) within) 0 rest
  rwa [Nat.zero_add] at read

namespace Engine

variable {C : Catalog} {limits : Limits} {e : Engine} {name : String} {c : Codec} {v : Value}
  {bytes : List UInt8}

/-- In every reachable engine, what a coding writes for a value within the limits is read back as
the normal form of the value, which is written to the same bytes, so that it is its own normal
form; if it is a record, it has the name of the coding. -/
theorem dynamic_round_trip (reached : Reachable C limits e)
    (held : e.compiled.get? name = some c) (written : c.Writes v bytes)
    (within : v.Within limits) :
    (∀ rest, c.decode (.ofBytes (bytes ++ rest)) =
      .ok (c.plan.normalize v) (.buffer bytes.length rest)) ∧
    c.Writes (c.plan.normalize v) bytes ∧
    c.plan.normalize (c.plan.normalize v) = c.plan.normalize v ∧
    ∀ typeName fields, c.plan = .record typeName fields → typeName = c.typeName := by
  have sound := reached.sound.codec name c held
  have fixed := Plan.normalize_fixed sound.coherent (Codec.writes_iff.mp written)
  refine ⟨?_, Codec.writes_iff.mpr fixed.1, fixed.2, sound.named⟩
  intro rest
  exact Codec.decode_of_writes written (sound.limits_eq ▸ within) rest

/-- A list in a record of another name with one more field is written and read back. -/
theorem dynamic_round_trip_record : ∃ e c,
    Reachable ⟨fun _ => ⟨[], true, .declared⟩, 0⟩ .standard e ∧ e.compiled.get? "P" = some c ∧
    c.Writes (.record "Q" [("x", .list [.scalar .int8 7]), ("y", .text "")]) [1, 0, 0, 0, 7] ∧
    c.decode (.ofBytes [1, 0, 0, 0, 7, 9]) =
      .ok (c.plan.normalize (.record "Q" [("x", .list [.scalar .int8 7]), ("y", .text "")]))
        (.buffer 5 [9]) := by
  have planned : (after [.codecOfSchema ⟨"P", 0, [.mk none "P" [.member "x" "Int8[]"]]⟩]
      (fresh ⟨fun _ => ⟨[], true, .declared⟩, 0⟩ .standard)).plan? "P" =
        some (.record "P" [("x", .bulk .int8)]) := by decide +kernel
  obtain ⟨typeName, found⟩ := Reachable.exists_codec ⟨_, rfl⟩ planned
  have written : Codec.Writes ⟨typeName, .record "P" [("x", .bulk .int8)], .standard⟩
      (.record "Q" [("x", .list [.scalar .int8 7]), ("y", .text "")]) [1, 0, 0, 0, 7] :=
    ⟨_, rfl, rfl⟩
  have within : Value.Within .standard
      (.record "Q" [("x", .list [.scalar .int8 7]), ("y", .text "")]) := by
    refine .record ?_
    rintro p hp
    rcases List.mem_cons.mp hp with rfl | hp
    · refine .list (by decide) ?_
      rintro w hw
      rcases List.mem_cons.mp hw with rfl | hw
      · exact .scalar .int8 7
      · cases hw
    · obtain rfl := List.mem_singleton.mp hp
      exact .text (by decide)
  exact ⟨_, _, ⟨_, rfl⟩, found, written,
    (dynamic_round_trip ⟨_, rfl⟩ found written within).1 [9]⟩

end Engine

end SchemaCodec
