import SchemaCodec.Proofs.Plan.ExactSize

/-! # What encoders refuse

A plan is encoded, and the size of its encoding found, unless the value is at fault: it has another
shape than the plan, lacks a member, or holds more than a count can tell. A sink may refuse what is
written besides.
-/

namespace SchemaCodec

/-- A value cannot be coded as it is. -/
inductive Error.OfValue : Error → Prop

  | mismatch (expected found : String) : OfValue (.typeMismatch expected found)

  | memberMissing (typeName member : String) : OfValue (.memberMissing typeName member)

  | countTooLarge (count : Nat) : OfValue (.malformed (.countTooLarge count))

namespace Emission

variable {R : Error → Prop} {α : Type}

/-- The emission ends in no error without `R`. -/
def FailsOnly (R : Error → Prop) (e : Emission) : Prop := ∀ err, e.failure = some err → R err

theorem failsOnly_empty : empty.FailsOnly R := fun _ no => by cases no

theorem failsOnly_piece (bytes : List UInt8) : (piece bytes).FailsOnly R := fun _ no => by cases no

theorem failsOnly_fail {err : Error} (h : R err) : (fail err).FailsOnly R := by
  rintro _ ⟨⟩
  exact h

theorem FailsOnly.append {a b : Emission} (ha : a.FailsOnly R) (hb : b.FailsOnly R) :
    (a ++ b).FailsOnly R := by
  obtain ⟨pieces, _ | err⟩ := a
  · exact hb
  · exact ha

theorem failsOnly_each {emit : α → Emission} {xs : List α} (h : ∀ x ∈ xs, (emit x).FailsOnly R) :
    (each emit xs).FailsOnly R := by
  induction xs with
  | nil => exact failsOnly_empty
  | cons x xs ih =>
    exact (h x List.mem_cons_self).append (ih fun y hy => h y (List.mem_cons_of_mem x hy))

theorem writePieces_error {pieces : List (List UInt8)} {s t : Sink} {err : Error}
    (h : writePieces pieces s = .error err t) : ∃ fault, err = .wire fault := by
  induction pieces generalizing s with
  | nil => cases h
  | cons piece pieces ih =>
    rw [writePieces] at h
    split at h
    · exact ih h
    · cases h
      exact ⟨_, rfl⟩

theorem FailsOnly.writeTo {e : Emission} (h : e.FailsOnly R) {s t : Sink} {err : Error}
    (failed : e.writeTo s = .error err t) : R err ∨ ∃ fault, err = .wire fault := by
  unfold Emission.writeTo at failed
  split at failed
  · split at failed
    · cases failed
    · next failure ends =>
      cases failed
      exact .inl (h _ ends)
  · next refused =>
    cases failed
    exact .inr (writePieces_error refused)

end Emission

namespace Plan

open Emission Error.OfValue

theorem failsOnly_emitCount (count : Nat) : (emitCount count).FailsOnly Error.OfValue := by
  unfold emitCount
  split
  · exact failsOnly_piece _
  · exact failsOnly_fail (countTooLarge count)

theorem failsOnly_emitScalar (k : Scalar) (v : Value) :
    (emitScalar k v).FailsOnly Error.OfValue := by
  unfold emitScalar
  split
  · split
    · exact failsOnly_piece _
    · exact failsOnly_fail (mismatch _ _)
  · exact failsOnly_fail (mismatch _ _)

theorem failsOnly_emitFields {typeName : String} {fields : List (String × Plan)}
    (h : ∀ p ∈ fields, ∀ v, (emit p.2 v).FailsOnly Error.OfValue)
    (values : List (String × Value)) :
    (emitFields typeName fields values).FailsOnly Error.OfValue := by
  induction fields with
  | nil =>
    rw [emitFields]
    exact failsOnly_empty
  | cons field rest ih =>
    obtain ⟨head, tail⟩ := List.forall_mem_cons.mp h
    rw [emitFields]
    split
    · exact (head _).append (ih tail)
    · exact failsOnly_fail (memberMissing _ _)

theorem failsOnly_emit (plan : Plan) (v : Value) : (emit plan v).FailsOnly Error.OfValue := by
  induction plan generalizing v with
  | scalar k =>
    rw [emit]
    exact failsOnly_emitScalar k v
  | text =>
    rw [emit]
    unfold emitText
    split
    · exact (failsOnly_emitCount _).append (failsOnly_piece _)
    · exact failsOnly_fail (mismatch _ _)
  | bulk k =>
    rw [emit]
    unfold emitBulk
    split
    · split
      · exact (failsOnly_emitCount _).append (failsOnly_piece _)
      · exact failsOnly_fail (mismatch _ _)
    · exact (failsOnly_emitCount _).append (failsOnly_each fun w _ => failsOnly_emitScalar k w)
    · exact failsOnly_fail (mismatch _ _)
  | elements element ih =>
    rw [emit]
    split
    · exact (failsOnly_emitCount _).append (failsOnly_each fun w _ => ih w)
    · exact failsOnly_fail (mismatch _ _)
  | record typeName fields ih =>
    cases v with
    | record other values =>
      rw [emit]
      exact failsOnly_emitFields ih values
    | _ =>
      rw [emit]
      · exact failsOnly_fail (mismatch _ _)
      · simp

theorem failsOnly_runSize (k : Scalar) (expected : String) (v : Value) :
    FailsOnly Error.OfValue (runSize k expected v) := by
  unfold runSize
  split
  · exact failsOnly_ok _
  · exact failsOnly_error (mismatch _ _)

theorem failsOnly_sumSizes {size : Value → Except Error Nat}
    (h : ∀ v, FailsOnly Error.OfValue (size v)) (items : List Value) :
    FailsOnly Error.OfValue (sumSizes size items) := by
  induction items with
  | nil => exact failsOnly_ok 0
  | cons v vs ih => exact (h v).bind fun _ _ => ih.bind fun _ _ => failsOnly_ok _

theorem failsOnly_fieldSizes {typeName : String} {fields : List (String × Plan)}
    (h : ∀ p ∈ fields, ∀ v, FailsOnly Error.OfValue (exactSize p.2 v))
    (values : List (String × Value)) :
    FailsOnly Error.OfValue (fieldSizes typeName fields values) := by
  induction fields with
  | nil =>
    rw [fieldSizes]
    exact failsOnly_ok 0
  | cons field rest ih =>
    obtain ⟨head, tail⟩ := List.forall_mem_cons.mp h
    rw [fieldSizes]
    split
    · exact (head _).bind fun _ _ => (ih tail).bind fun _ _ => failsOnly_ok _
    · exact failsOnly_error (memberMissing _ _)

theorem failsOnly_exactSize (plan : Plan) (v : Value) :
    FailsOnly Error.OfValue (exactSize plan v) := by
  induction plan generalizing v with
  | scalar k =>
    rw [exactSize]
    exact failsOnly_ok _
  | text =>
    cases v with
    | text s =>
      rw [exactSize]
      exact failsOnly_ok _
    | _ =>
      rw [exactSize]
      · exact failsOnly_error (mismatch _ _)
      · simp
  | bulk k =>
    rw [exactSize]
    exact failsOnly_runSize k _ v
  | elements element ih =>
    rw [exactSize_elements]
    split
    · exact (failsOnly_sumSizes ih _).map
    · exact failsOnly_error (mismatch _ _)
  | record typeName fields ih =>
    cases v with
    | record other values =>
      rw [exactSize]
      exact failsOnly_fieldSizes ih values
    | _ =>
      rw [exactSize]
      · exact failsOnly_error (mismatch _ _)
      · simp

end Plan

end SchemaCodec
