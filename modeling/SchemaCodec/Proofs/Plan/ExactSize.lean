import SchemaCodec.Plan.Codec
import SchemaCodec.Proofs.Outcome
import SchemaCodec.Proofs.Plan.Encode

/-! # Exact sizes

The size found for a value is an upper bound for all that its encoding says, and it is reached
unless the encoding fails. So a buffer of that size is filled to the end or left with the very error
that growing memory would have been left with.
-/

namespace SchemaCodec

theorem add_eq_ok {x y : Except Error Nat} {total : Nat} :
    (do let m ← x; let n ← y; return m + n) = .ok total ↔
      ∃ m n, x = .ok m ∧ y = .ok n ∧ m + n = total := by
  simp only [bind_eq_ok, return_eq_ok, exists_and_left]

namespace Emission

variable {a b e : Emission} {m n : Nat}

/-- The emission says at most `n` bytes, and exactly `n` if it does not fail. -/
def Fits (e : Emission) (n : Nat) : Prop :=
  e.bytes.length ≤ n ∧ (e.failure = none → e.bytes.length = n)

theorem fits_empty : empty.Fits 0 := by simp [Fits]

theorem fits_piece (bytes : List UInt8) : (piece bytes).Fits bytes.length := by simp [Fits]

theorem fits_fail (err : Error) (n : Nat) : (fail err).Fits n := by simp [Fits]

theorem Fits.append (ha : a.Fits m) (hb : b.Fits n) : (a ++ b).Fits (m + n) := by
  cases h : a.failure with
  | none =>
    rw [Fits, failure_append h, bytes_append h, List.length_append, ha.2 h]
    exact ⟨Nat.add_le_add_left hb.1 m, fun clean => by rw [hb.2 clean]⟩
  | some err =>
    rw [append_of_failure h]
    exact ⟨Nat.le_add_right_of_le ha.1, fun clean => nomatch h.symm.trans clean⟩

theorem fits_each {size : Value → Except Error Nat} {emit : Value → Emission} {items : List Value}
    (each_fits : ∀ v ∈ items, ∀ m, size v = .ok m → (emit v).Fits m)
    (h : Plan.sumSizes size items = .ok n) : (each emit items).Fits n := by
  induction items generalizing n with
  | nil =>
    obtain rfl : 0 = n := Except.ok.inj h
    exact fits_empty
  | cons v vs ih =>
    obtain ⟨m, total, hv, hs, rfl⟩ := add_eq_ok.mp h
    exact (each_fits v List.mem_cons_self m hv).append
      (ih (fun w hw => each_fits w (List.mem_cons_of_mem v hw)) hs)

end Emission

namespace Plan

theorem sumSizes_const (n : Nat) (items : List Value) :
    sumSizes (fun _ => .ok n) items = .ok (items.length * n) := by
  induction items with
  | nil => simp [sumSizes]
  | cons v vs ih =>
    rw [sumSizes, ih]
    exact congrArg Except.ok (by rw [List.length_cons, Nat.succ_mul, Nat.add_comm])

theorem sumSizes_ok {size : Value → Except Error Nat} {items : List Value}
    (h : ∀ v ∈ items, ∃ n, size v = .ok n) : ∃ n, sumSizes size items = .ok n := by
  induction items with
  | nil => exact ⟨0, rfl⟩
  | cons v vs ih =>
    obtain ⟨m, hm⟩ := h v List.mem_cons_self
    obtain ⟨n, hn⟩ := ih fun w hw => h w (List.mem_cons_of_mem v hw)
    exact ⟨m + n, add_eq_ok.mpr ⟨m, n, hm, hn, rfl⟩⟩

/-- The shortcut for sequences of scalars agrees with adding up the sizes of the elements. -/
theorem exactSize_elements (element : Plan) (v : Value) :
    exactSize (.elements element) v =
      match v.elements? with
      | some items => (countSize + ·) <$> sumSizes (exactSize element) items
      | none => .error (.mismatch "sequence" v) := by
  cases element with
  | scalar k =>
    have size : exactSize (.scalar k) = fun _ => .ok k.width := by funext v; rw [exactSize]
    rw [exactSize, runSize, Value.length?_eq_map_elements?, size]
    cases v.elements? with
    | none => rfl
    | some items =>
      simp only [Option.map_some, sumSizes_const]
      rfl
  | _ => exact exactSize.eq_def _ _

theorem fits_emitCount (count : Nat) : (emitCount count).Fits countSize := by
  rw [emitCount]
  split
  · have length := Emission.fits_piece (LittleEndian.split countSize count)
    rwa [LittleEndian.length_split] at length
  · exact Emission.fits_fail _ _

theorem fits_emitScalar (k : Scalar) (v : Value) : (emitScalar k v).Fits k.width := by
  unfold emitScalar
  split
  · next l x =>
    split
    · next same =>
      subst same
      exact Scalar.length_toBytes l x ▸ Emission.fits_piece (l.toBytes x)
    · exact Emission.fits_fail _ _
  · exact Emission.fits_fail _ _

theorem length_runBytes (k : Scalar) (xs : List k.Carrier) :
    (k.runBytes xs).length = xs.length * k.width := by
  induction xs with
  | nil => simp [Scalar.runBytes]
  | cons x xs ih =>
    rw [Scalar.runBytes] at ih ⊢
    rw [List.flatMap_cons, List.length_append, ih, Scalar.length_toBytes, List.length_cons,
      Nat.succ_mul, Nat.add_comm]

theorem fits_emitBulk {k : Scalar} {v : Value} {n : Nat}
    (h : runSize k (Value.arrayOf k) v = .ok n) : (emitBulk k v).Fits n := by
  cases v with
  | array l xs =>
    obtain rfl : countSize + xs.length * k.width = n := Except.ok.inj h
    rw [emitBulk]
    split
    · next same =>
      subst same
      exact (fits_emitCount _).append (length_runBytes l xs ▸ Emission.fits_piece _)
    · exact Emission.fits_fail _ _
  | list items =>
    obtain rfl : countSize + items.length * k.width = n := Except.ok.inj h
    rw [emitBulk]
    refine (fits_emitCount _).append (Emission.fits_each ?_ (sumSizes_const k.width items))
    rintro v - m ⟨⟩
    exact fits_emitScalar k v
  | scalar l x => cases h
  | text s => cases h
  | record typeName fields => cases h

theorem fits_emitFields {typeName : String} {fields : List (String × Plan)}
    {values : List (String × Value)} {n : Nat}
    (ih : ∀ p ∈ fields, ∀ v m, exactSize p.2 v = .ok m → (emit p.2 v).Fits m)
    (h : fieldSizes typeName fields values = .ok n) :
    (emitFields typeName fields values).Fits n := by
  induction fields generalizing n with
  | nil =>
    rw [fieldSizes] at h
    obtain rfl : 0 = n := Except.ok.inj h
    rw [emitFields]
    exact Emission.fits_empty
  | cons field rest ihr =>
    obtain ⟨name, plan⟩ := field
    rw [fieldSizes] at h
    rw [emitFields]
    cases hv : Fields.get? name values with
    | none => exact Emission.fits_fail _ _
    | some v =>
      rw [hv] at h
      obtain ⟨m, total, hm, ht, rfl⟩ := add_eq_ok.mp h
      exact (ih (name, plan) List.mem_cons_self v m hm).append
        (ihr (fun p hp => ih p (List.mem_cons_of_mem _ hp)) ht)

/-- All that the encoding of a value says fits into the size found for it. -/
theorem fits_emit {plan : Plan} {v : Value} {n : Nat} (h : exactSize plan v = .ok n) :
    (emit plan v).Fits n := by
  induction plan generalizing v n with
  | scalar k =>
    rw [exactSize] at h
    obtain rfl : k.width = n := Except.ok.inj h
    rw [emit]
    exact fits_emitScalar k v
  | text =>
    rw [emit]
    cases v with
    | text s =>
      rw [exactSize] at h
      obtain rfl : countSize + (Utf8.encode s).length = n := Except.ok.inj h
      exact (fits_emitCount _).append (Emission.fits_piece _)
    | _ => exact Emission.fits_fail _ _
  | bulk k =>
    rw [exactSize] at h
    rw [emit]
    exact fits_emitBulk h
  | elements element ih =>
    rw [exactSize_elements] at h
    rw [emit]
    cases hv : v.elements? with
    | none => exact Emission.fits_fail _ _
    | some items =>
      rw [hv] at h
      obtain ⟨total, sum, rfl⟩ := map_eq_ok.mp h
      exact (fits_emitCount _).append (Emission.fits_each (fun v _ m => ih) sum)
  | record typeName fields ih =>
    cases v with
    | record other values =>
      rw [exactSize] at h
      rw [emit]
      exact fits_emitFields (fun p hp v m => ih p hp) h
    | _ => simp [emit, Emission.fits_fail]

theorem fieldSizes_ok {typeName : String} {fields : List (String × Plan)}
    {values : List (String × Value)} {bytes : List UInt8}
    (ih : ∀ p ∈ fields, ∀ v b, (emit p.2 v).Yields b → ∃ n, exactSize p.2 v = .ok n)
    (h : (emitFields typeName fields values).Yields bytes) :
    ∃ n, fieldSizes typeName fields values = .ok n := by
  induction fields generalizing bytes with
  | nil => exact ⟨0, by rw [fieldSizes]⟩
  | cons field rest ihr =>
    obtain ⟨pieces, all, rfl⟩ := yields_emitFields.mp h
    cases all with
    | cons head all =>
      obtain ⟨v, found, head⟩ := head
      obtain ⟨m, hm⟩ := ih field List.mem_cons_self v _ head
      obtain ⟨n, hn⟩ := ihr (fun p hp => ih p (List.mem_cons_of_mem _ hp))
        (yields_emitFields.mpr ⟨_, all, rfl⟩)
      refine ⟨m + n, ?_⟩
      rw [fieldSizes, found]
      exact add_eq_ok.mpr ⟨m, n, hm, hn, rfl⟩

theorem exactSize_ok {plan : Plan} {v : Value} {bytes : List UInt8}
    (h : (emit plan v).Yields bytes) : ∃ n, exactSize plan v = .ok n := by
  induction plan generalizing v bytes with
  | scalar k => exact ⟨k.width, by rw [exactSize]⟩
  | text =>
    obtain ⟨s, rfl, -⟩ := yields_text.mp h
    exact ⟨_, by rw [exactSize]⟩
  | bulk k =>
    obtain ⟨xs, rfl | rfl, -⟩ := yields_bulk.mp h
    · exact ⟨_, by rw [exactSize]; rfl⟩
    · exact ⟨_, by rw [exactSize]; rfl⟩
  | elements element ih =>
    obtain ⟨items, pieces, found, -, all, -⟩ := yields_elements.mp h
    have sizes : ∀ w ∈ items, ∃ n, exactSize element w = .ok n := fun w hw =>
      ih (Emission.yields_of_mem (Emission.yields_each.mpr ⟨pieces, all, rfl⟩) hw).choose_spec
    obtain ⟨n, hn⟩ := sumSizes_ok sizes
    exact ⟨countSize + n, by rw [exactSize_elements, found]; simp only [hn]; rfl⟩
  | record typeName fields ih =>
    obtain ⟨other, values, rfl, h⟩ := yields_record.mp h
    rw [exactSize]
    exact fieldSizes_ok (fun p hp v b => ih p hp) h

theorem exactSize_of_yields {plan : Plan} {v : Value} {bytes : List UInt8}
    (h : (emit plan v).Yields bytes) : exactSize plan v = .ok bytes.length := by
  obtain ⟨n, size⟩ := exactSize_ok h
  have length : bytes.length = n := h.2 ▸ (fits_emit size).2 h.1
  rw [size, length]

end Plan

end SchemaCodec
