import SchemaCodec.Proofs.Engine.Coherence
import SchemaCodec.Proofs.Plan.Backing

/-! # Counts that the input cannot back

Counts may be corrupt. Where elements take bytes, a count above the number of bytes behind it makes
decoding fail, so that the values that are decoded are not larger than the input. Records without
data take no bytes, so any number of them is a message of four bytes, and a value that is decoded
from it can have more elements than the input has bytes.
-/

namespace SchemaCodec.Engine

open Plan

variable {C : Catalog} {limits : Limits} {e : Engine} {name : String} {c : Codec}

/-- In every reachable engine, a coding whose sequences all have elements that take bytes decodes no
more elements than bytes, those of texts included. Whatever the coding, decoding fails on the data
as soon as it reads a count of elements that take bytes which is larger than the number of bytes
behind it. -/
theorem decoded_at_most_input (reached : Reachable C limits e)
    (held : e.compiled.get? name = some c) :
    (c.plan.Backed → ∀ s v t, c.decode s = .ok v t →
      v.elementCount + t.unread.length ≤ s.unread.length) ∧
    ∀ s q s' counted limit raw t, c.plan.Enters limits s q s' →
      q.counted? limits = some (counted, limit) →
      (∀ element, q = .elements element → ¬ element.Hollow) →
      Reader.scalar .int32 s' = .ok raw t → t.unread.length < raw.toInt →
      ∃ err u, c.decode s = .error err u ∧ err.OfData := by
  obtain rfl : c.limits = limits := (reached.sound.codec name c held).limits_eq
  constructor
  · intro backed s v t decoded
    obtain ⟨piece, taken, read⟩ := reads_of_decode decoded
    have bound := (elementCount_le backed read).1
    rw [taken, List.length_append]
    omega
  · intro s q s' counted limit raw t enters begins solid read large
    cases inner : q.decode c.limits s' with
    | ok v u =>
      have enough := count_le begins solid read inner
      omega
    | error err u =>
      exact ⟨err, u, enters.decode_error inner, Decoder.failsOnData_decode q s' err u inner⟩

/-- Two records of one byte each are decoded from six bytes, and nine are refused. -/
theorem decoded_at_most_input_bytes : ∃ e c v,
    Reachable ⟨fun _ => ⟨[], true, .declared⟩, 0⟩ .standard e ∧ e.compiled.get? "R[]" = some c ∧
    (c.decode (.ofBytes [2, 0, 0, 0, 7, 8]) = .ok v (.buffer 6 []) ∧ v.elementCount ≤ 6) ∧
    ∃ err u, c.decode (.ofBytes [9, 0, 0, 0, 7, 8]) = .error err u ∧ err.OfData := by
  have planned : (after [.codecOfSchema ⟨"R[]", 0, [.mk none "R" [.member "x" "Int8"]]⟩]
      (fresh ⟨fun _ => ⟨[], true, .declared⟩, 0⟩ .standard)).plan? "R[]" =
        some (.elements (.record "R" [("x", .scalar .int8)])) := by
    decide +kernel
  obtain ⟨typeName, found⟩ := Reachable.exists_codec ⟨_, rfl⟩ planned
  have solid : ¬ Hollow (.record "R" [("x", .scalar .int8)]) := by
    rintro ⟨all⟩
    cases all _ (List.mem_singleton.mpr rfl)
  have backed : Backed (.elements (.record "R" [("x", .scalar .int8)])) := by
    refine .elements solid (.record fun p hp => ?_)
    obtain rfl := List.mem_singleton.mp hp
    exact .scalar .int8
  obtain ⟨bounded, refused⟩ := decoded_at_most_input ⟨_, rfl⟩ found
  refine ⟨_, _, _, ⟨_, rfl⟩, found, ⟨rfl, bounded backed (.ofBytes [2, 0, 0, 0, 7, 8]) _ _ rfl⟩, ?_⟩
  refine refused _ _ _ _ _ 9 (.buffer 4 [7, 8]) (.here _ _) rfl ?_ rfl (by decide)
  rintro _ ⟨⟩
  exact solid

/-- Five records without members take the four bytes of their count, and are decoded from them. -/
theorem decoded_units_outnumber_bytes :
    let C : Catalog := ⟨fun _ => ⟨[], true, .declared⟩, 1⟩
    let units : MessageType := .sequence .vector (.record ⟨"Unit", "Unit", 0⟩ [])
    let e := after [.codecOf units] (fresh C .standard)
    Reachable C .standard e ∧ ∃ c v, e.compiled.get? "Unit[]" = some c ∧
      c.decode (.ofBytes [5, 0, 0, 0]) = .ok v (.buffer 4 []) ∧ v.elementCount = 5 := by
  intro C units e
  have planned : e.plan? "Unit[]" = some (.elements (.record "Unit" [])) := by decide +kernel
  obtain ⟨typeName, found⟩ := Reachable.exists_codec (e := e) ⟨_, rfl⟩ planned
  exact ⟨⟨_, rfl⟩, _, _, found, rfl, rfl⟩

end SchemaCodec.Engine
