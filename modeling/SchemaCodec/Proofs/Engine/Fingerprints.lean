import SchemaCodec.Proofs.Engine.Resynthesis
import SchemaCodec.Proofs.Program.Unqualified

/-! # Fingerprints of types made from schemas

The fingerprint of a schema is taken from the unqualified name of its root. The program knows that
name from the declaration, an engine that made the type from the schema takes it from the canonical
name. The two agree for every record whose canonical name ends in its identifier.
-/

namespace SchemaCodec

open SchemaCodec.Action Descriptor

theorem Descriptor.exists_levels (d : Descriptor) : ∃ levels,
    d.name = TypeName.arrays d.innermost.name levels ∧
      d.shortName = TypeName.arrays d.innermost.shortName levels := by
  induction d with
  | sequence container element ih =>
    obtain ⟨levels, named, short⟩ := ih
    exact ⟨levels + 1, congrArg TypeName.array named, congrArg TypeName.array short⟩
  | _ => exact ⟨0, rfl, rfl⟩

theorem MessageType.innermost_describe (t : MessageType) :
    (∃ p, t.describe.innermost = .primitive p) ∨ (∃ i, t.describe.innermost = .parameter i) ∨
      ∃ id args, t.describe.innermost = .declared id args := by
  induction t with
  | primitive p => exact .inl ⟨p, rfl⟩
  | parameter i => exact .inr (.inl ⟨i, rfl⟩)
  | sequence _ _ ih => exact ih
  | record id args _ => exact .inr (.inr ⟨id, args, rfl⟩)

namespace Engine

variable {C K : Catalog} {limits : Limits} {ext : Extraction} {t : MessageType}

theorem shortName_describe (h : Extraction.ofDescriptor C t.describe = .ok ext)
    (wellFormed : ∀ r ∈ ext.records, TypeName.WellFormed r.name)
    (qualified : ∀ id args, t.describe.innermost = .declared id args → id.Qualified) :
    t.describe.shortName = TypeName.short t.describe.name := by
  obtain ⟨records, -⟩ := Extraction.ofDescriptor_eq_ok h
  have covered := (Discovery.closed_records (Discovery.hereditary_true C) trivial records).2
  obtain ⟨levels, named, short⟩ := t.describe.exists_levels
  rcases covered with ⟨p, -, inner⟩ | ⟨isRecord, r, hr, own⟩
  · rw [named, short, inner, Descriptor.name, Descriptor.shortName,
      TypeName.short_arrays (TypeName.atomic_name p), TypeName.short_name]
  · have atomic := (wellFormed r hr).toAtomic
    rw [own] at atomic
    rw [named, short, TypeName.short_arrays atomic]
    rcases t.innermost_describe with ⟨p, inner⟩ | ⟨i, inner⟩ | ⟨id, args, inner⟩
    · rw [inner] at isRecord
      cases isRecord
    · rw [inner] at isRecord
      cases isRecord
    · rw [inner] at atomic ⊢
      have whole := TypeName.splitArrays_arrays atomic 0
      exact congrArg (TypeName.arrays · levels) ((qualified id args inner).short_eq whole).symm

/-- The engine that made the types from a schema extracts a fingerprint of the canonical name: that
of its unqualified part. Where the record at the root is qualified, as it is unless it is declared
under another name, it is the fingerprint of the schema. -/
theorem fingerprint_restored (unambiguous : Unambiguous C t.describe)
    (h : Extraction.ofDescriptor C t.describe = .ok ext)
    (wellFormed : ∀ r ∈ ext.records, TypeName.WellFormed r.name)
    (inhabited : ∀ r ∈ ext.records, r.members C ≠ [])
    (fits : ext.records.length ≤ K.capacity)
    (qualified : ∀ id args, t.describe.innermost = .declared id args → id.Qualified) :
    ∃ d S, (resolveSchema ext.schema (fresh K limits)).result = .ok d ∧
      (extract d (resolveSchema ext.schema (fresh K limits)).state).result = .ok S ∧
      S.fingerprint = ext.schema.fingerprint := by
  have run : (resolveSchema ext.schema >>= extract).Ends (fresh K limits) _ _ :=
    ends_extract_resolved unambiguous h wellFormed (Extraction.inhabited_types h inhabited)
      (Extraction.length_types h ▸ fits)
  obtain ⟨d, resolved, ends⟩ := (ends_bind.mp run).result
  obtain ⟨S, extracted, -, -, -, same⟩ := ends.result
  refine ⟨d, S, resolved, extracted, ?_⟩
  rw [same, Extraction.fingerprint_eq h, shortName_describe h wellFormed qualified]

/-- Both sides take the fingerprint of `Crate` for a crate of labels. -/
theorem fingerprint_restored_crate : ∃ ext d S,
    Extraction.ofDescriptor crates crate.describe = .ok ext ∧
    (resolveSchema ext.schema (fresh crates .standard)).result = .ok d ∧
    (extract d (resolveSchema ext.schema (fresh crates .standard)).state).result = .ok S ∧
    S.fingerprint = ext.schema.fingerprint ∧
    ext.schema.fingerprint = Fingerprint.ofString "Crate" := by
  have qualified : ∀ id args, crate.describe.innermost = .declared id args → id.Qualified := by
    rintro _ _ ⟨⟩
    exact ⟨"shop::".toList, .colons "shop".toList, by decide, by decide, by decide, by decide⟩
  obtain ⟨d, S, resolved, extracted, same⟩ :=
    @fingerprint_restored crates crates .standard _ crate unambiguous_crate rfl
    (fun r hr => wellFormed_crates r.name (by revert r; decide)) (by decide) (by decide) qualified
  exact ⟨_, d, S, rfl, resolved, extracted, same, rfl⟩

/-- A record whose canonical name does not end in its identifier. -/
def box : MessageType := .record ⟨"g.Box", "GBox", 0⟩ [.scalar .int32]

/-- The fingerprint of such a record is that of its identifier where the record is declared, and that
of its canonical name where it is made from the schema. -/
theorem fingerprint_of_renamed : ∃ ext d S,
    Extraction.ofDescriptor crates box.describe = .ok ext ∧
    Unambiguous crates box.describe ∧ (∀ r ∈ ext.records, TypeName.WellFormed r.name) ∧
    (∀ r ∈ ext.records, r.members crates ≠ []) ∧
    (resolveSchema ext.schema (fresh crates .standard)).result = .ok d ∧
    (extract d (resolveSchema ext.schema (fresh crates .standard)).state).result = .ok S ∧
    ext.schema.fingerprint = Fingerprint.ofString "GBox" ∧
    S.fingerprint = Fingerprint.ofString "Box" ∧ ext.schema.fingerprint ≠ S.fingerprint := by
  have unambiguous : Unambiguous crates box.describe :=
    unambiguous_of_known [box, .scalar .int32, .sequence .vector (.scalar .int32),
      .sequence .deque (.sequence .vector (.scalar .int32))] (by decide) (by decide) (by decide)
  let ext : Extraction := ⟨⟨"g.Box<Int32>", Fingerprint.ofString "GBox",
    [.mk none "g.Box<Int32>" [.member "first" "Int32", .member "rows" "Int32[][]"]]⟩,
    [box.describe]⟩
  have extracted : Extraction.ofDescriptor crates box.describe = .ok ext := rfl
  have wellFormed : ∀ r ∈ ext.records, TypeName.WellFormed r.name :=
    fun r hr => wellFormed_crates r.name (by revert r; decide)
  have inhabited : ∀ r ∈ ext.records, r.members crates ≠ [] := by decide
  have run : (resolveSchema ext.schema >>= extract).Ends (fresh crates .standard) _ _ :=
    ends_extract_resolved unambiguous extracted wellFormed
      (Extraction.inhabited_types extracted inhabited) (by decide)
  obtain ⟨d, resolved, ends⟩ := (ends_bind.mp run).result
  obtain ⟨S, again, -, -, -, same⟩ := ends.result
  have other : S.fingerprint = Fingerprint.ofString "Box" := same.trans (by decide)
  refine ⟨ext, d, S, extracted, unambiguous, wellFormed, inhabited, resolved, again, rfl, other, ?_⟩
  rw [other]
  decide

end Engine

end SchemaCodec
