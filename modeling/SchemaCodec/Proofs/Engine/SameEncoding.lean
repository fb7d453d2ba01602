import SchemaCodec.Proofs.Engine.ExactSize

/-! # Encodings that say the same

What a plan says for a value comes in pieces, but the pieces leave no trace: plans that say the same
bytes and end in the same way fill the same buffers.
-/

namespace SchemaCodec

namespace Emission

variable {a a' b b' : Emission} {bytes : List UInt8}

/-- The emissions say the same bytes, in whatever pieces, and end in the same way. -/
def Alike (a b : Emission) : Prop := a.bytes = b.bytes ∧ a.failure = b.failure

theorem Alike.refl (a : Emission) : a.Alike a := ⟨rfl, rfl⟩

theorem Alike.symm (h : a.Alike b) : b.Alike a := ⟨h.1.symm, h.2.symm⟩

theorem Alike.append (h : a.Alike a') (h' : b.Alike b') : (a ++ b).Alike (a' ++ b') := by
  cases ended : a.failure with
  | none =>
    have ended' : a'.failure = none := h.2.symm.trans ended
    rw [Alike, bytes_append ended, bytes_append ended', failure_append ended,
      failure_append ended', h.1, h'.1]
    exact ⟨rfl, h'.2⟩
  | some err =>
    rw [append_of_failure ended, append_of_failure (h.2.symm.trans ended)]
    exact h

theorem alike_each {α : Type} {emit emit' : α → Emission} {xs : List α}
    (h : ∀ x ∈ xs, (emit x).Alike (emit' x)) : (each emit xs).Alike (each emit' xs) := by
  induction xs with
  | nil => exact .refl _
  | cons x xs ih =>
    exact (h x List.mem_cons_self).append (ih fun y hy => h y (List.mem_cons_of_mem x hy))

theorem Yields.alike (h : a.Yields bytes) (h' : b.Yields bytes) : a.Alike b :=
  ⟨h.2.trans h'.2.symm, h.1.trans h'.1.symm⟩

end Emission

namespace Plan

/-- The plans say the same for the value, and find the same size. -/
def SameEncoding (p q : Plan) (v : Value) : Prop :=
  (p.emit v).Alike (q.emit v) ∧ p.exactSize v = q.exactSize v

variable {p q : Plan} {v : Value} {k : Scalar} {ys : List k.Carrier} {limits : Limits}
  {piece : List UInt8}

theorem SameEncoding.refl (p : Plan) (v : Value) : p.SameEncoding p v := ⟨.refl _, rfl⟩

theorem SameEncoding.symm (h : p.SameEncoding q v) : q.SameEncoding p v := ⟨h.1.symm, h.2.symm⟩

theorem sameEncoding_bulk (form : (∃ ys, v = .array k ys) ∨ ∃ items, v = .list items) :
    (Plan.bulk k).SameEncoding (.elements (.scalar k)) v := by
  have scalar : emit (.scalar k) = emitScalar k := by
    funext w
    rw [emit]
  rcases form with ⟨ys, rfl⟩ | ⟨items, rfl⟩
  · have run : (Emission.each (emitScalar k) (Value.scalars k ys)).Yields (k.runBytes ys) :=
      yields_each_scalar.mpr ⟨ys, rfl, rfl⟩
    have count : (Value.scalars k ys).length = ys.length := List.length_map _
    refine ⟨?_, ?_⟩
    · rw [emit, emitBulk, if_pos rfl, emit, scalar]
      dsimp only [Value.elements?]
      rw [count]
      exact (Emission.Alike.refl _).append ((Emission.yields_piece.mpr rfl).alike run)
    · rw [exactSize, exactSize]
      rfl
  · refine ⟨?_, ?_⟩
    · rw [emit, emitBulk, emit, scalar]
      exact .refl _
    · rw [exactSize, exactSize]
      rfl

theorem sameEncoding_elements {vs : List Value} (items : v.elements? = some vs)
    (h : ∀ w ∈ vs, p.SameEncoding q w) : (Plan.elements p).SameEncoding (.elements q) v := by
  constructor
  · rw [emit, emit, items]
    exact (Emission.Alike.refl _).append (Emission.alike_each fun w hw => (h w hw).1)
  · rw [exactSize_elements, exactSize_elements, items]
    dsimp only
    have sums : sumSizes (exactSize p) vs = sumSizes (exactSize q) vs := by
      clear items
      induction vs with
      | nil => rfl
      | cons w ws ih =>
        rw [sumSizes, sumSizes, (h w List.mem_cons_self).2,
          ih fun u hu => h u (List.mem_cons_of_mem w hu)]
    rw [sums]

theorem sameEncoding_record {name name' other : String} {fields fields' : List (String × Plan)}
    {values : List (String × Value)}
    (h : List.Forall₂ (fun field field' => field.1 = field'.1 ∧
      (∀ w, Fields.get? field.1 values = some w → field.2.SameEncoding field'.2 w) ∧
      (Fields.get? field.1 values = none → name = name')) fields fields') :
    (Plan.record name fields).SameEncoding (.record name' fields') (.record other values) := by
  rw [SameEncoding, emit, emit, exactSize, exactSize]
  induction h with
  | nil =>
    rw [emitFields, emitFields, fieldSizes, fieldSizes]
    exact ⟨.refl _, rfl⟩
  | @cons field field' _ _ head _ ih =>
    obtain ⟨n, p⟩ := field
    obtain ⟨n', q⟩ := field'
    obtain ⟨rfl, same, missing⟩ := head
    rw [emitFields, emitFields, fieldSizes, fieldSizes]
    cases found : Fields.get? n values with
    | none =>
      obtain rfl := missing found
      exact ⟨.refl _, rfl⟩
    | some w =>
      obtain ⟨said, size⟩ := same w found
      dsimp only
      rw [size, ih.2]
      exact ⟨said.append ih.1, rfl⟩

end Plan

namespace Codec

variable {c c' : Codec} {v : Value}

theorem Writes.congr {bytes : List UInt8} (h : c.Writes v bytes)
    (same : c.plan.SameEncoding c'.plan v) : c'.Writes v bytes := by
  obtain ⟨ended, said⟩ := writes_iff.mp h
  exact writes_iff.mpr ⟨same.1.2.symm.trans ended, same.1.1.symm.trans said⟩

/-- A value that has a size but is refused cannot be written into a buffer of that size either. -/
theorem toBytes_of_refuses {n : Nat} {err : Error} (size : c.exactSize v = .ok n)
    (refused : c.Refuses v err) : c.toBytes v = .error err := by
  obtain ⟨sink, failed⟩ := encode_refused size refused
  rw [toBytes, size]
  dsimp only [bind, Except.bind]
  rw [failed]

theorem toBytes_congr (h : c.plan.SameEncoding c'.plan v) : c.toBytes v = c'.toBytes v := by
  cases size : c.exactSize v with
  | error err =>
    have size' : c'.exactSize v = .error err := h.2.symm.trans size
    rw [toBytes, toBytes, size, size']
    rfl
  | ok n =>
    have size' : c'.exactSize v = .ok n := h.2.symm.trans size
    rcases writes_or_refuses c v with ⟨bytes, written⟩ | ⟨err, refused⟩
    · rw [toBytes_eq_ok.mpr written, toBytes_eq_ok.mpr (written.congr h)]
    · have refused' : c'.Refuses v err :=
        refuses_iff.mpr (h.1.2.symm.trans (refuses_iff.mp refused))
      rw [toBytes_of_refuses size refused, toBytes_of_refuses size' refused']

end Codec

end SchemaCodec
