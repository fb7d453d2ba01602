import SchemaCodec.Proofs.Engine.Frame
import SchemaCodec.Proofs.Schema.Rejection

/-! # What extraction rejects

In whatever state an engine is, extraction succeeds for just the types that lead to encodings only
and to no record that embeds itself. Where it fails, nothing that the engine knows has changed.
-/

namespace SchemaCodec

open Relation SchemaCodec.Action Descriptor Extraction

namespace Engine

variable {C : Catalog} {limits : Limits} {e : Engine} {root d : Descriptor} {t : MessageType}

/-- The engines know the same: they may differ in their counters. -/
structure SameKnowledge (e e' : Engine) : Prop where
  schemas : e'.schemas = e.schemas
  registry : e'.registry = e.registry
  compiled : e'.compiled = e.compiled

theorem ends_extract_eq (d : Descriptor) (e : Engine) : (extract d).Ends e
    (fun schema _ => ∃ ext, ofDescriptor e.catalog d = .ok ext ∧ schema = ext.schema)
    fun error e' => ofDescriptor e.catalog d = .error error ∧ e' = e := by
  unfold extract
  rw [ends_bind, ends_get, ends_bind, ends_ofExcept]
  constructor
  · intro ext extracted
    rw [ends_bind, ends_report, ends_bind, resolving, ends_within]
    have declared : (declareAll e.catalog ext.records).Keeps (fun _ => True) (fun _ => False)
        fun _ => True :=
      Registry.keeps_declareAll fun _ _ _ => Registry.keeps_declare fun _ _ _ => trivial
    apply (declared e.registry trivial).mono
    · exact fun _ _ _ => ⟨ext, extracted, rfl⟩
    · exact fun _ _ never => never.2.elim
  · exact fun error failed => ⟨failed, rfl⟩

theorem result_eq_map {step : Action Engine Schema} {outcome : Except Error Extraction}
    {R : Engine → Prop} (ends : step.Ends e
      (fun schema _ => ∃ ext, outcome = .ok ext ∧ schema = ext.schema)
      fun error e' => outcome = .error error ∧ R e') :
    (step e).result = outcome.map Extraction.schema := by
  cases result : (step e).result with
  | ok schema =>
    obtain ⟨ext, extracted, rfl⟩ := ends.of_ok result
    rw [extracted, Except.map]
  | error error => rw [(ends.of_error result).1, Except.map]

/-- A schema that is held is the one that would be extracted, and one that cannot be extracted is
not held. -/
theorem ends_schemaOf_reachable (reachable : Reachable C limits e) (t : MessageType) :
    (schemaOf t).Ends e
      (fun schema _ => ∃ ext, ofDescriptor C t.describe = .ok ext ∧ schema = ext.schema)
      fun error e' => ofDescriptor C t.describe = .error error ∧ SameKnowledge e e' := by
  obtain ⟨rfl, held⟩ := reachable.framed
  unfold schemaOf
  rw [ends_bind, ends_get]
  split
  · next schema found => exact held t schema found
  · simp only [ends_bind, count, ends_modify, ends_report]
    apply (ends_extract_eq t.describe _).mono
    · exact fun _ _ extracted => extracted
    · rintro error _ ⟨failed, rfl⟩
      exact ⟨failed, rfl, rfl, rfl⟩

/-- Extraction succeeds just where the root leads to types with an encoding and to no record that
embeds itself. It finds a cycle just where the first is so and the second is not, and then it names
the records from which a cycle can be reached. Where it fails, the engine knows what it knew. -/
theorem extracts_serializable (reachable : Reachable C limits e)
    (unambiguous : Unambiguous C root) (bounded : Bounded C root) :
    ((∃ schema, (extract root e).result = .ok schema) ↔
      Clear C root ∧ ¬ ∃ name, TransGen (Embeds C root) name name) ∧
    ((∃ remaining, (extract root e).result = .error (.dependencyCycle remaining)) ↔
      Clear C root ∧ ∃ name, TransGen (Embeds C root) name name) ∧
    (∀ error, (extract root e).result = .error error → (extract root e).state = e ∧
      ((∃ owner obstacle, error = .notSerializable owner obstacle) ∨
        ∃ remaining, error = .dependencyCycle remaining ∧ Entangled C root remaining)) ∧
    ∀ t, t.describe = root → (schemaOf t e).result = (extract root e).result ∧
      ∀ error, (schemaOf t e).result = .error error → SameKnowledge e (schemaOf t e).state := by
  have ends := ends_extract_eq root e
  rw [reachable.framed.catalog_eq] at ends
  have result := result_eq_map ends
  have unchanged : ∀ error, (extract root e).result = .error error → (extract root e).state = e :=
    fun error failed => (ends.of_error failed).2
  have held : ∀ t, t.describe = root → (schemaOf t e).result = (extract root e).result ∧
      ∀ error, (schemaOf t e).result = .error error → SameKnowledge e (schemaOf t e).state := by
    rintro t rfl
    have ends := ends_schemaOf_reachable reachable t
    exact ⟨(result_eq_map ends).trans result.symm, fun error failed => (ends.of_error failed).2⟩
  rcases ofDescriptor_cases unambiguous bounded with ⟨ext, ok, clear, acyclic⟩ |
    ⟨owner, obstacle, failed, obstructed⟩ | ⟨remaining, failed, clear, cyclic, entangled⟩
  · rw [ok, Except.map] at result
    refine ⟨?_, ?_, fun error failed => ?_, held⟩
    · simp only [result, clear, acyclic]
      simp
    · simp [result, acyclic]
    · cases result.symm.trans failed
  · rw [failed, Except.map] at result
    refine ⟨?_, ?_, fun error failed => ⟨unchanged error failed, .inl ?_⟩, held⟩
    · simp [result, obstructed]
    · simp [result, obstructed]
    · cases result.symm.trans failed
      exact ⟨owner, obstacle, rfl⟩
  · rw [failed, Except.map] at result
    refine ⟨?_, ?_, fun error failed => ⟨unchanged error failed, .inr ?_⟩, held⟩
    · simp only [result, cyclic, not_true_eq_false, and_false, iff_false]
      simp
    · simp [result, clear, cyclic]
    · cases result.symm.trans failed
      exact ⟨remaining, rfl, entangled⟩

def tree : MessageType := .record ⟨"Tree", "Tree", 0⟩ []

def trees : Catalog where
  declaration := fun _ =>
    ⟨[⟨"Children", .sequence .vector (.record ⟨"Tree", "Tree", 0⟩ []), fun _ => .items [], false⟩],
      true, .declared⟩
  capacity := 1

theorem record_of_reaches_tree {d : Descriptor} (h : Reaches trees tree.describe d) :
    d.innermost = tree.describe := by
  induction h with
  | root => rfl
  | element _ ih => exact ih
  | member _ mem ih =>
    rw [innermost_of_isRecord (isRecord_of_mem_members mem)] at ih
    subst ih
    obtain rfl := List.mem_singleton.mp mem
    rfl

theorem clear_tree : Clear trees tree.describe := by
  intro d reached obstructed
  have inner := record_of_reaches_tree reached
  cases obstructed with
  | decimal => cases inner
  | parameter => cases inner
  | noDefault isRecord stuck =>
    obtain rfl := (innermost_of_isRecord isRecord).symm.trans inner
    cases stuck
  | duplicate isRecord twice =>
    obtain rfl := (innermost_of_isRecord isRecord).symm.trans inner
    exact twice (List.nodup_singleton _)

/-- A tree embeds itself, so it cannot be extracted. -/
theorem extracts_serializable_tree : ∃ remaining, "Tree" ∈ remaining ∧
    (extract tree.describe (fresh trees .standard)).result =
      .error (.dependencyCycle remaining) := by
  have records : ∀ r, Reaches trees tree.describe r → r.isRecord = true → r = tree.describe :=
    fun r reached isRecord => innermost_of_isRecord isRecord ▸ record_of_reaches_tree reached
  have bounded : Bounded trees tree.describe := by
    refine ⟨["Tree"], by decide, fun r reached isRecord => ?_⟩
    obtain rfl := records r reached isRecord
    exact List.mem_singleton.mpr rfl
  have unambiguous : Unambiguous trees tree.describe :=
    unambiguous_of_unique fun r r' reached reached' isRecord isRecord' _ =>
      (records r reached isRecord).trans (records r' reached' isRecord').symm
  have cycle : TransGen (Embeds trees tree.describe) "Tree" "Tree" :=
    .single ⟨tree.describe, .root, rfl, _, List.mem_cons_self, rfl, rfl⟩
  obtain ⟨-, cyclic, errors, -⟩ := extracts_serializable ⟨[], rfl⟩ unambiguous bounded
  obtain ⟨remaining, failed⟩ := cyclic.mpr ⟨clear_tree, "Tree", cycle⟩
  refine ⟨remaining, ?_, failed⟩
  obtain ⟨-, ⟨owner, obstacle, no⟩ | ⟨_, same, entangled⟩⟩ := errors _ failed
  · cases no
  · cases same
    exact (entangled.mem_iff _).mpr ⟨"Tree", .refl, cycle⟩

end Engine

end SchemaCodec
