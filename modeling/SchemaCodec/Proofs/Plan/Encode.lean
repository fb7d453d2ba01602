import SchemaCodec.Plan.Encode
import SchemaCodec.Proofs.Plan.Emission

/-! # What plans accept

For each form of plan, the values that it can encode and the bytes that it encodes them to.
-/

namespace SchemaCodec.Plan

variable {k : Scalar} {v : Value} {bytes : List UInt8}

theorem yields_emitCount {count : Nat} :
    (emitCount count).Yields bytes ↔
      count ≤ maxCount ∧ bytes = LittleEndian.split countSize count := by
  rw [emitCount]
  split
  · next small => simp [small]
  · next large => simp [large, Emission.not_yields_fail]

theorem yields_emitScalar :
    (emitScalar k v).Yields bytes ↔ ∃ x, v = .scalar k x ∧ bytes = k.toBytes x := by
  constructor
  · intro h
    cases v with
    | scalar l x =>
      rw [emitScalar] at h
      split at h
      · next same =>
        subst same
        exact ⟨x, rfl, Emission.yields_piece.mp h⟩
      · exact absurd h Emission.not_yields_fail
    | _ => exact absurd h Emission.not_yields_fail
  · rintro ⟨x, rfl, rfl⟩
    rw [emitScalar, if_pos rfl]
    exact Emission.yields_piece.mpr rfl

theorem yields_each_scalar {items : List Value} :
    (Emission.each (emitScalar k) items).Yields bytes ↔
      ∃ xs, items = Value.scalars k xs ∧ bytes = k.runBytes xs := by
  induction items generalizing bytes with
  | nil =>
    rw [Emission.each, Emission.yields_empty]
    constructor
    · rintro rfl
      exact ⟨[], rfl, rfl⟩
    · rintro ⟨xs, empty, rfl⟩
      rw [List.map_eq_nil_iff.mp empty.symm]
      rfl
  | cons v vs ih =>
    rw [Emission.each, Emission.yields_append]
    constructor
    · rintro ⟨front, back, head, tail, rfl⟩
      obtain ⟨x, rfl, rfl⟩ := yields_emitScalar.mp head
      obtain ⟨xs, rfl, rfl⟩ := ih.mp tail
      exact ⟨x :: xs, rfl, rfl⟩
    · rintro ⟨_ | ⟨x, xs⟩, same, rfl⟩
      · cases same
      · obtain ⟨rfl, rfl⟩ := List.cons.inj same
        exact ⟨_, _, yields_emitScalar.mpr ⟨x, rfl, rfl⟩, ih.mpr ⟨xs, rfl, rfl⟩, rfl⟩

theorem yields_scalar :
    (emit (.scalar k) v).Yields bytes ↔ ∃ x, v = .scalar k x ∧ bytes = k.toBytes x := by
  rw [emit]
  exact yields_emitScalar

theorem yields_text :
    (emit .text v).Yields bytes ↔
      ∃ s, v = .text s ∧ (Utf8.encode s).length ≤ maxCount ∧
        bytes = LittleEndian.split countSize (Utf8.encode s).length ++ Utf8.encode s := by
  rw [emit]
  constructor
  · intro h
    cases v with
    | text s =>
      obtain ⟨front, back, count, rest, rfl⟩ := Emission.yields_append.mp h
      obtain ⟨small, rfl⟩ := yields_emitCount.mp count
      exact ⟨s, rfl, small, by rw [Emission.yields_piece.mp rest]⟩
    | _ => exact absurd h Emission.not_yields_fail
  · rintro ⟨s, rfl, small, rfl⟩
    exact Emission.yields_append.mpr
      ⟨_, _, yields_emitCount.mpr ⟨small, rfl⟩, Emission.yields_piece.mpr rfl, rfl⟩

theorem yields_bulk :
    (emit (.bulk k) v).Yields bytes ↔
      ∃ xs, (v = .array k xs ∨ v = .list (Value.scalars k xs)) ∧ xs.length ≤ maxCount ∧
        bytes = LittleEndian.split countSize xs.length ++ k.runBytes xs := by
  rw [emit]
  constructor
  · intro h
    cases v with
    | array l xs =>
      rw [emitBulk] at h
      split at h
      · next same =>
        subst same
        obtain ⟨front, back, count, rest, rfl⟩ := Emission.yields_append.mp h
        obtain ⟨small, rfl⟩ := yields_emitCount.mp count
        exact ⟨xs, .inl rfl, small, by rw [Emission.yields_piece.mp rest]⟩
      · exact absurd h Emission.not_yields_fail
    | list items =>
      obtain ⟨front, back, count, rest, rfl⟩ := Emission.yields_append.mp h
      obtain ⟨xs, rfl, rfl⟩ := yields_each_scalar.mp rest
      obtain ⟨small, rfl⟩ := yields_emitCount.mp count
      rw [Value.scalars, List.length_map] at small ⊢
      exact ⟨xs, .inr rfl, small, rfl⟩
    | _ => exact absurd h Emission.not_yields_fail
  · rintro ⟨xs, rfl | rfl, small, rfl⟩
    · rw [emitBulk, if_pos rfl]
      exact Emission.yields_append.mpr
        ⟨_, _, yields_emitCount.mpr ⟨small, rfl⟩, Emission.yields_piece.mpr rfl, rfl⟩
    · refine Emission.yields_append.mpr ⟨_, _, yields_emitCount.mpr ⟨?_, ?_⟩,
        yields_each_scalar.mpr ⟨xs, rfl, rfl⟩, rfl⟩
      · rwa [Value.scalars, List.length_map]
      · rw [Value.scalars, List.length_map]

theorem yields_elements {element : Plan} :
    (emit (.elements element) v).Yields bytes ↔
      ∃ items pieces, v.elements? = some items ∧ items.length ≤ maxCount ∧
        List.Forall₂ (fun w piece => (emit element w).Yields piece) items pieces ∧
        bytes = LittleEndian.split countSize items.length ++ pieces.flatten := by
  rw [emit]
  constructor
  · intro h
    split at h
    · next items found =>
      obtain ⟨front, back, count, rest, rfl⟩ := Emission.yields_append.mp h
      obtain ⟨small, rfl⟩ := yields_emitCount.mp count
      obtain ⟨pieces, all, rfl⟩ := Emission.yields_each.mp rest
      exact ⟨items, pieces, found, small, all, rfl⟩
    · exact absurd h Emission.not_yields_fail
  · rintro ⟨items, pieces, found, small, all, rfl⟩
    rw [found]
    exact Emission.yields_append.mpr ⟨_, _, yields_emitCount.mpr ⟨small, rfl⟩,
      Emission.yields_each.mpr ⟨pieces, all, rfl⟩, rfl⟩

theorem yields_record {typeName : String} {fields : List (String × Plan)} :
    (emit (.record typeName fields) v).Yields bytes ↔
      ∃ other values, v = .record other values ∧
        (emitFields typeName fields values).Yields bytes := by
  constructor
  · intro h
    cases v with
    | record other values =>
      rw [emit] at h
      exact ⟨other, values, rfl, h⟩
    | _ => simp [emit] at h
  · rintro ⟨other, values, rfl, h⟩
    rwa [emit]

theorem yields_emitFields {typeName : String} {fields : List (String × Plan)}
    {values : List (String × Value)} :
    (emitFields typeName fields values).Yields bytes ↔
      ∃ pieces, List.Forall₂
          (fun field piece => ∃ w, Fields.get? field.1 values = some w ∧
            (emit field.2 w).Yields piece) fields pieces ∧
        bytes = pieces.flatten := by
  induction fields generalizing bytes with
  | nil => simp [emitFields]
  | cons field rest ih =>
    obtain ⟨name, plan⟩ := field
    rw [emitFields]
    constructor
    · intro h
      split at h
      · next w found =>
        obtain ⟨front, back, head, tail, rfl⟩ := Emission.yields_append.mp h
        obtain ⟨pieces, all, rfl⟩ := ih.mp tail
        exact ⟨front :: pieces, .cons ⟨w, found, head⟩ all, rfl⟩
      · exact absurd h Emission.not_yields_fail
    · rintro ⟨pieces, all, rfl⟩
      cases all with
      | cons head all =>
        obtain ⟨w, found, head⟩ := head
        rw [found]
        exact Emission.yields_append.mpr ⟨_, _, head, ih.mpr ⟨_, all, rfl⟩, rfl⟩

end SchemaCodec.Plan
