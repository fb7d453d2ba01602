import SchemaCodec.Proofs.Cache
import SchemaCodec.Proofs.Engine.Coherence

/-! # Schemas in engines

No call changes the program that an engine is for, and only the schema of a type is ever added to
its schemas, where it was extracted from the type. So an extraction that failed once will always
fail.
-/

namespace SchemaCodec

open SchemaCodec.Action

namespace Engine

/-- The engine is for the given program, and its schemas have the property. -/
structure Framed (C : Catalog) (P : Cache MessageType Schema → Prop) (e : Engine) : Prop where
  catalog_eq : e.catalog = C
  schemas : P e.schemas

def Grows (C : Catalog) (P : Cache MessageType Schema → Prop) : Prop :=
  ∀ cache t ext, P cache → Extraction.ofDescriptor C t.describe = .ok ext → P (cache.add t ext.schema)

variable {C : Catalog} {P : Cache MessageType Schema → Prop} {limits : Limits} {e : Engine}
  {t : MessageType}

theorem framed_extract (d : Descriptor) :
    (extract d).Keeps (Framed C P) (fun _ => True) fun schema =>
      ∃ ext, Extraction.ofDescriptor C d = .ok ext ∧ schema = ext.schema := by
  apply keeps_extract
  · rintro e ⟨rfl, -⟩ ext extracted
    refine ⟨⟨ext, extracted, rfl⟩, keeps_resolving ?_ fun _ _ he _ => ⟨he.catalog_eq, he.schemas⟩⟩
    exact fun _ => (Registry.writes_declareAll _ ext.records).weaken
  · exact fun _ _ _ _ => trivial

theorem ends_schemaOf_held (t : MessageType) (e : Engine) :
    (schemaOf t).Ends e (fun schema e' => e'.schemas.get? t = some schema) fun _ _ => True := by
  unfold schemaOf
  rw [ends_bind, ends_get]
  cases found : e.schemas.get? t with
  | some schema => exact found
  | none =>
    have framed := framed_extract (C := e.catalog) (P := fun cache => cache.get? t = none)
      t.describe
    dsimp only
    rw [ends_bind, ends_count, ends_bind, ends_report, ends_bind]
    refine Ends.mono (framed _ ⟨rfl, found⟩) ?_ fun _ _ _ => trivial
    rintro schema e' ⟨⟨-, new⟩, -⟩
    rw [ends_bind, ends_modify, ends_pure, Cache.get?_add_self, Cache.getOr, new]
    rfl

theorem framed_write (grows : Grows C P) {e' : Engine} (write : e.Write e') (he : Framed C P e) :
    Framed C P e' := by
  obtain ⟨rfl, schemas⟩ := he
  cases write with
  | schema extracted => exact ⟨rfl, grows _ _ _ schemas extracted⟩
  | _ => exact ⟨rfl, schemas⟩

/-- What holds of the schemas at first and is kept where one is extracted holds after every run. -/
theorem framed_after (grows : Grows C P) (ops : List Operation) (he : Framed C P e) :
    Framed C P (after ops e) :=
  after_of_write (fun _ _ write => framed_write grows write) he ops

theorem Reachable.framed (h : Reachable C limits e) : Framed C (fun cache =>
    ∀ t schema, cache.get? t = some schema →
      ∃ ext, Extraction.ofDescriptor C t.describe = .ok ext ∧ schema = ext.schema) e := by
  obtain ⟨ops, rfl⟩ := h
  refine framed_after ?_ ops ⟨rfl, fun _ _ found => by cases found⟩
  intro cache t ext old extracted t' schema found
  rcases Cache.get?_add_eq_some found with known | ⟨-, rfl, rfl⟩
  · exact old t' schema known
  · exact ⟨ext, extracted, rfl⟩

end Engine

end SchemaCodec
