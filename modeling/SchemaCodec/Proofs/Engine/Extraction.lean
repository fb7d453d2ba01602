import SchemaCodec.Engine.Basic
import SchemaCodec.Proofs.Action
import SchemaCodec.Proofs.Cache

/-! # What extraction keeps

Extraction declares the records that it met and were not made from schemas, each under a name that
is new; and the schema of a type is added where none is held. What these two changes keep is kept.
-/

namespace SchemaCodec

open SchemaCodec.Action

namespace Registry

def Declares (r : Registry) (name : String) : Prop := ∃ d, r.declared.get? name = some d

variable {I : Registry → Prop} {R : Error → Prop} {C : Catalog} {d : Descriptor}
  {records : List Descriptor}

theorem keeps_declare (h : ∀ r, I r → r.declared.get? d.name = none →
      I { r with declared := r.declared.add d.name d }) :
    (declare d).Keeps I R fun _ => True := by
  intro r hr
  unfold declare
  rw [ends_bind, ends_get]
  split
  · next new =>
    rw [ends_bind, ends_report, ends_modify]
    simp only [Cache.contains, Bool.not_eq_true', Option.isSome_eq_false_iff,
      Option.isNone_iff_eq_none] at new
    exact ⟨h r hr new, trivial⟩
  · exact ⟨hr, trivial⟩

theorem keeps_declareAll (h : ∀ d ∈ records, d.origin C ≠ .synthesized →
      (declare d).Keeps I R fun _ => True) :
    (Engine.declareAll C records).Keeps I R fun _ => True := by
  induction records with
  | nil => exact keeps_pure trivial
  | cons d ds ih =>
    obtain ⟨head, tail⟩ := List.forall_mem_cons.mp h
    rw [Engine.declareAll]
    split
    · next made => exact (head made).bind fun _ _ => ih tail
    · exact ih tail

theorem ends_declare_declares (d : Descriptor) (r : Registry) :
    (declare d).Ends r
      (fun _ r' => (∀ other, r.Declares other → r'.Declares other) ∧ r'.Declares d.name)
      fun _ _ => False := by
  unfold declare
  rw [ends_bind, ends_get]
  split
  · rw [ends_bind, ends_report, ends_modify]
    refine ⟨?_, ⟨_, Cache.get?_add_self _ _ _⟩⟩
    rintro other ⟨d', known⟩
    exact ⟨d', Cache.get?_add_of_some known _ _⟩
  · next known =>
    rw [Bool.not_eq_true', Bool.not_eq_false] at known
    exact ⟨fun _ declared => declared, Cache.contains_iff.mp known⟩

theorem ends_declareAll_declares (C : Catalog) (records : List Descriptor) (r : Registry) :
    (Engine.declareAll C records).Ends r
      (fun _ r' => (∀ other, r.Declares other → r'.Declares other) ∧
        ∀ d ∈ records, d.origin C ≠ .synthesized → r'.Declares d.name)
      fun _ _ => False := by
  induction records generalizing r with
  | nil => exact ⟨fun _ declared => declared, fun _ no => absurd no List.not_mem_nil⟩
  | cons d ds ih =>
    rw [Engine.declareAll]
    split
    · rw [ends_bind]
      refine (ends_declare_declares d r).mono ?_ fun _ _ no => no
      rintro _ r₁ ⟨old₁, known⟩
      refine (ih r₁).mono ?_ fun _ _ no => no
      rintro _ r₂ ⟨old₂, rest⟩
      refine ⟨fun other declared => old₂ other (old₁ other declared), fun d' hd made => ?_⟩
      rcases List.mem_cons.mp hd with rfl | hd
      · exact old₂ _ known
      · exact rest d' hd made
    · next synthesized =>
      refine (ih r).mono ?_ fun _ _ no => no
      rintro _ r' ⟨old, rest⟩
      refine ⟨old, fun d' hd made => ?_⟩
      rcases List.mem_cons.mp hd with rfl | hd
      · exact absurd made synthesized
      · exact rest d' hd made

end Registry

namespace Engine

variable {I : Engine → Prop} {R : Error → Prop} {P : Schema → Prop} {d : Descriptor}
  {t : MessageType}

theorem keeps_extract
    (declares : ∀ e, I e → ∀ ext, Extraction.ofDescriptor e.catalog d = .ok ext →
      P ext.schema ∧ (resolving (declareAll e.catalog ext.records)).Keeps I R fun _ => True)
    (fails : ∀ e, I e → ∀ err, Extraction.ofDescriptor e.catalog d = .error err → R err) :
    (extract d).Keeps I R P := by
  apply keeps_get.bind fun e he => Keeps.bind (keeps_ofExcept (declares e he) (fails e he)) ?_
  rintro ext ⟨hP, kept⟩
  exact (keeps_report _).bind fun _ _ => kept.bind fun _ _ => keeps_pure hP

theorem keeps_schemaOf {Q : Schema → Prop} (counted : ∀ f, (count f).Keeps I R fun _ => True)
    (held : ∀ e schema, I e → e.schemas.get? t = some schema → Q schema)
    (extracted : (extract t.describe).Keeps I R P) (found : ∀ schema, P schema → Q schema)
    (adds : ∀ e schema, I e → P schema → I { e with schemas := e.schemas.add t schema }) :
    (schemaOf t).Keeps I R Q := by
  apply keeps_get.bind fun e he => ?_
  split
  · next schema known => exact (counted _).bind fun _ _ => keeps_pure (held e schema he known)
  · apply (counted _).bind fun _ _ => (keeps_report _).bind fun _ _ => extracted.bind ?_
    intro schema hP
    exact (keeps_modify fun e he => adds e schema he hP).bind fun _ _ => keeps_pure (found schema hP)

end Engine

end SchemaCodec
