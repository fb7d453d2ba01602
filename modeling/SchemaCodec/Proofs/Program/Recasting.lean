import SchemaCodec.Proofs.Plan.Recoding
import SchemaCodec.Proofs.Program.Agreement

/-! # Arrays and lists in place of each other

A sequence of scalars may be an array or the list of its elements. Whoever takes the one takes the
other and makes the same of it, wherever in a value it stands. Only an empty list is more than an
empty array, since it is a sequence of anything.
-/

namespace SchemaCodec

theorem Fields.rel_get? {α β : Type} {R : α → β → Prop} {fields : List (String × α)}
    {fields' : List (String × β)} (names : fields.map Prod.fst = fields'.map Prod.fst)
    (each : ∀ p q, (p, q) ∈ fields.zip fields' → R p.2 q.2) (name : String) :
    Option.Rel R (get? name fields) (get? name fields') := by
  induction fields generalizing fields' with
  | nil =>
    obtain rfl := List.map_eq_nil_iff.mp names.symm
    exact .none
  | cons p fields ih =>
    cases fields' with
    | nil => cases names
    | cons q fields' =>
      obtain ⟨n, x⟩ := p
      obtain ⟨m, y⟩ := q
      obtain ⟨same, tail⟩ := List.cons.inj names
      obtain rfl : n = m := same
      rw [get?, get?]
      split
      · exact .some (each _ _ List.mem_cons_self)
      · exact ih tail fun p q mem => each p q (List.mem_cons_of_mem _ mem)

namespace Value

/-- The second value has arrays of the first one as lists of their elements, or lists of scalars of
one kind as arrays, at any places. -/
inductive Recast : Value → Value → Prop

  | same (v : Value) : Recast v v

  | listed (k : Scalar) (xs : List k.Carrier) : Recast (.array k xs) (.list (scalars k xs))

  | packed {k : Scalar} {xs : List k.Carrier} : xs ≠ [] →
      Recast (.list (scalars k xs)) (.array k xs)

  | list {items others : List Value} : items.length = others.length →
      (∀ v w, (v, w) ∈ items.zip others → Recast v w) → Recast (.list items) (.list others)

  | record {typeName : String} {fields fields' : List (String × Value)} :
      fields.map Prod.fst = fields'.map Prod.fst →
      (∀ p q, (p, q) ∈ fields.zip fields' → Recast p.2 q.2) →
      Recast (.record typeName fields) (.record typeName fields')

variable {k : Scalar} {x : k.Carrier} {s : String} {v w : Value} {items others : List Value}

theorem Recast.scalar_eq (h : Recast (.scalar k x) w) : w = .scalar k x := by
  cases h with
  | same => rfl

theorem Recast.text_eq (h : Recast (.text s) w) : w = .text s := by
  cases h with
  | same => rfl

theorem scalars_of_recast {xs : List k.Carrier} (length : (scalars k xs).length = others.length)
    (h : ∀ v w, (v, w) ∈ (scalars k xs).zip others → Recast v w) : others = scalars k xs := by
  have all : List.Forall₂ (fun v w => v = w) (scalars k xs) others := by
    refine ((List.forall₂_and_left _ _).mpr ⟨fun _ mem => mem, forall₂_zip length⟩).imp ?_
    rintro v w ⟨mem, pair⟩
    obtain ⟨y, -, rfl⟩ := List.mem_map.mp mem
    exact (h _ _ pair).scalar_eq.symm
  rw [List.forall₂_eq_eq_eq] at all
  exact all.symm

theorem scalars_inj {l : Scalar} {xs : List k.Carrier} {ys : List l.Carrier} (some : xs ≠ [])
    (same : scalars k xs = scalars l ys) : array k xs = array l ys := by
  obtain ⟨x, xs, rfl⟩ := List.exists_cons_of_ne_nil some
  cases ys with
  | nil => cases same
  | cons y ys =>
    obtain ⟨head, tail⟩ := List.cons.inj same
    obtain ⟨rfl, -⟩ := Value.scalar.inj head
    have back := congrArg (List.filterMap (scalar? k)) same
    rw [Plan.filterMap_scalars, Plan.filterMap_scalars] at back
    rw [back]

theorem Recast.elements (h : Recast v w) (found : v.elements? = some items) :
    ∃ others, w.elements? = some others ∧ List.Forall₂ Recast items others := by
  cases h with
  | same => exact ⟨items, found, List.forall₂_same.mpr fun v _ => .same v⟩
  | listed | packed => exact ⟨items, found, List.forall₂_same.mpr fun v _ => .same v⟩
  | list length each =>
    obtain rfl := Option.some.inj found
    exact ⟨_, rfl, (forall₂_zip length).imp each⟩
  | record => cases found

end Value

open Value

namespace Plan

variable {v w : Value} {bytes : List UInt8}

/-! ## Writing -/

/-- A plan that yields bytes for a value yields them for the recast value. -/
theorem yields_recast (plan : Plan) (h : v.Recast w) (yields : (emit plan v).Yields bytes) :
    (emit plan w).Yields bytes := by
  induction plan generalizing v w bytes with
  | scalar k =>
    obtain ⟨x, rfl, -⟩ := yields_scalar.mp yields
    rwa [h.scalar_eq]
  | text =>
    obtain ⟨s, rfl, -⟩ := yields_text.mp yields
    rwa [h.text_eq]
  | bulk k =>
    obtain ⟨xs, form, small, rfl⟩ := yields_bulk.mp yields
    suffices same : w = .array k xs ∨ w = .list (scalars k xs) from
      yields_bulk.mpr ⟨xs, same, small, rfl⟩
    rcases form with rfl | rfl
    · cases h with
      | same => exact .inl rfl
      | listed => exact .inr rfl
    · generalize whole : Value.list (scalars k xs) = v at h
      cases h with
      | same => exact .inr rfl
      | listed => cases whole
      | packed some => exact .inl (scalars_inj some (Value.list.inj whole).symm)
      | list length each =>
        obtain rfl := Value.list.inj whole
        exact .inr (congrArg Value.list (scalars_of_recast length each))
      | record => cases whole
  | elements element ih =>
    obtain ⟨items, pieces, found, small, all, rfl⟩ := yields_elements.mp yields
    obtain ⟨others, found', recast⟩ := h.elements found
    refine yields_elements.mpr ⟨others, pieces, found', recast.length_eq ▸ small, ?_, ?_⟩
    · refine (forall₂_comp recast.flip all).imp ?_
      rintro w piece ⟨v, hvw, hv⟩
      exact ih hvw hv
    · rw [recast.length_eq]
  | record typeName fields ih =>
    obtain ⟨other, values, rfl, yields⟩ := yields_record.mp yields
    cases h with
    | same => exact yields_record.mpr ⟨other, values, rfl, yields⟩
    | @record _ _ values' names each =>
      obtain ⟨pieces, all, rfl⟩ := yields_emitFields.mp yields
      refine yields_record.mpr ⟨other, values', rfl, yields_emitFields.mpr ⟨pieces, ?_, rfl⟩⟩
      refine ((List.forall₂_and_left _ _).mpr ⟨fun _ mem => mem, all⟩).imp ?_
      rintro field piece ⟨mem, v, found, hv⟩
      have related := Fields.rel_get? names each field.1
      rw [found] at related
      generalize found' : Fields.get? field.1 values' = result at related
      cases related with
      | some recast => exact ⟨_, rfl, ih field mem recast hv⟩

end Plan

namespace Codec

variable {c : Codec} {v : Value} {sink sink' : Sink}

theorem encode_eq_ok : c.encode v sink = .ok () sink' ↔
    ∃ bytes, (c.plan.emit v).Yields bytes ∧ Sink.write bytes sink = .ok () sink' := by
  have pieces : ∀ t, Emission.writePieces (c.plan.emit v).pieces sink = .ok () t ↔
      Sink.write (c.plan.emit v).bytes sink = .ok () t := fun _ => Emission.writePieces_eq_ok
  rw [encode, Plan.encode, Emission.writeTo]
  constructor
  · intro h
    split at h
    · next t written =>
      split at h
      · next ended =>
        obtain ⟨-, rfl⟩ := EStateM.Result.ok.inj h
        exact ⟨_, ⟨ended, rfl⟩, (pieces _).mp written⟩
      · cases h
    · cases h
  · rintro ⟨_, ⟨ended, rfl⟩, written⟩
    rw [(pieces sink').mpr written, ended]

end Codec

namespace Catalog

variable {C : Catalog} {v w : Value} {t : MessageType} {x : Instance} {args : List MessageType}

/-! ## Reading -/

theorem ofValue_scalar_eq_ok {k : Scalar} {y : k.Carrier}
    (h : C.ofValue (.scalar k y) t = .ok x) : t = .scalar k := by
  cases t with
  | primitive p =>
    cases p with
    | scalar l =>
      rw [ofValue] at h
      split at h
      · next same => rw [same]
      · cases h
    | string | decimal => simp [ofValue] at h
  | parameter | sequence | record => simp [ofValue] at h

theorem ofValue_array_eq_ok {k : Scalar} {ys : List k.Carrier}
    (h : C.ofValue (.array k ys) t = .ok x) : ∃ storage, t = .sequence storage (.scalar k) := by
  cases t with
  | sequence storage element =>
    rw [ofValue] at h
    obtain ⟨xs, read, -⟩ := map_eq_ok.mp h
    unfold elementsOfArray at read
    split at read
    · split at read
      · next same => exact ⟨storage, by rw [same]⟩
      · cases read
    · cases read
  | primitive p => cases p <;> simp [ofValue] at h
  | parameter | record => simp [ofValue] at h

theorem ofValue_list_eq_ok {items : List Value} : C.ofValue (.list items) t = .ok x ↔
    ∃ storage element xs, t = .sequence storage element ∧ C.ofValues items element = .ok xs ∧
      x = .items xs := by
  constructor
  · intro h
    cases t with
    | sequence storage element =>
      rw [ofValue] at h
      obtain ⟨xs, read, rfl⟩ := map_eq_ok.mp h
      exact ⟨storage, element, xs, rfl, read, rfl⟩
    | primitive p => cases p <;> simp [ofValue] at h
    | parameter | record => simp [ofValue] at h
  · rintro ⟨storage, element, xs, rfl, read, rfl⟩
    rw [ofValue]
    exact map_eq_ok.mpr ⟨xs, read, rfl⟩

theorem ofValue_record_eq_ok {name : String} {fields : List (String × Value)} :
    C.ofValue (.record name fields) t = .ok x ↔ ∃ id args xs, t = .record id args ∧
      C.assign (C.fieldReaders fields) args (C.declaration id).fields = .ok xs ∧
      x = .record xs := by
  constructor
  · intro h
    cases t with
    | record id args =>
      rw [ofValue] at h
      obtain ⟨xs, read, rfl⟩ := map_eq_ok.mp h
      exact ⟨id, args, xs, rfl, read, rfl⟩
    | primitive p => cases p <;> simp [ofValue] at h
    | parameter | sequence => simp [ofValue] at h
  · rintro ⟨id, args, xs, rfl, read, rfl⟩
    rw [ofValue]
    exact map_eq_ok.mpr ⟨xs, read, rfl⟩

def ReadsAs (C : Catalog) (v w : Value) : Prop :=
  ∀ t x, C.ofValue v t = .ok x → C.ofValue w t = .ok x

theorem ReadsAs.ofValues {items others : List Value} {xs : List Instance}
    (all : List.Forall₂ C.ReadsAs items others) (h : C.ofValues items t = .ok xs) :
    C.ofValues others t = .ok xs := by
  induction all generalizing xs with
  | nil => exact h
  | cons head _ ih =>
    rw [Catalog.ofValues] at h ⊢
    obtain ⟨x, first, h⟩ := bind_eq_ok.mp h
    obtain ⟨rest, later, h⟩ := bind_eq_ok.mp h
    exact bind_eq_ok.mpr ⟨x, head _ _ first, bind_eq_ok.mpr ⟨rest, ih later, h⟩⟩

theorem ReadsAs.assign {fs : List Field} {values values' : List (String × Value)}
    {xs : List Instance}
    (each : ∀ name, Option.Rel C.ReadsAs (Fields.get? name values) (Fields.get? name values'))
    (h : C.assign (C.fieldReaders values) args fs = .ok xs) :
    C.assign (C.fieldReaders values') args fs = .ok xs := by
  induction fs generalizing xs with
  | nil =>
    rw [Catalog.assign] at h ⊢
    exact h
  | cons f fs ih =>
    -- Only the first field differs between the two runs, and only in how its value is read.
    have step : ∀ {first first' : Except Error Instance},
        (∀ y, first = .ok y → first' = .ok y) →
        (first >>= fun y => C.assign (C.fieldReaders values) args fs >>= fun ys =>
          pure (y :: ys)) = .ok xs →
        (first' >>= fun y => C.assign (C.fieldReaders values') args fs >>= fun ys =>
          pure (y :: ys)) = .ok xs := by
      intro first first' same run
      obtain ⟨y, head, run⟩ := bind_eq_ok.mp run
      obtain ⟨ys, tail, run⟩ := bind_eq_ok.mp run
      exact bind_eq_ok.mpr ⟨y, same y head, bind_eq_ok.mpr ⟨ys, ih tail, run⟩⟩
    have related := each f.name
    rw [Catalog.assign, get?_fieldReaders] at h ⊢
    cases skipped : f.skipped with
    | true =>
      rw [skipped, if_pos rfl] at h
      rw [if_pos rfl]
      exact step (fun y head => head) h
    | false =>
      rw [skipped, if_neg Bool.false_ne_true] at h
      rw [if_neg Bool.false_ne_true]
      generalize Fields.get? f.name values = found at h related
      generalize Fields.get? f.name values' = found' at related
      cases related with
      | none => exact step (fun y head => head) h
      | some reads => exact step (reads _) h

theorem readsAs_recast (h : v.Recast w) : C.ReadsAs v w := by
  induction h with
  | same v => exact fun t x read => read
  | listed k ys =>
    intro t x read
    obtain ⟨storage, rfl⟩ := ofValue_array_eq_ok read
    exact (ofValue_scalars k ys storage).trans read
  | @packed k ys some =>
    intro t x read
    obtain ⟨storage, element, xs, rfl, all, -⟩ := ofValue_list_eq_ok.mp read
    obtain ⟨y, ys, rfl⟩ := List.exists_cons_of_ne_nil some
    rw [scalars, List.map_cons, ofValues] at all
    obtain ⟨first, head, -⟩ := bind_eq_ok.mp all
    obtain rfl := ofValue_scalar_eq_ok head
    exact (ofValue_scalars k (y :: ys) storage).symm.trans read
  | list length _ ih =>
    intro t x read
    obtain ⟨storage, element, xs, rfl, all, rfl⟩ := ofValue_list_eq_ok.mp read
    refine ofValue_list_eq_ok.mpr ⟨storage, element, xs, rfl, ?_, rfl⟩
    exact ReadsAs.ofValues ((forall₂_zip length).imp ih) all
  | @record name fields fields' names _ ih =>
    intro t x read
    obtain ⟨id, args, xs, rfl, all, rfl⟩ := ofValue_record_eq_ok.mp read
    refine ofValue_record_eq_ok.mpr ⟨id, args, xs, rfl, ?_, rfl⟩
    exact ReadsAs.assign (Fields.rel_get? names ih) all

end Catalog

namespace Value

variable {v w : Value}

/-- Arrays and lists are interchangeable. Whatever a coding writes for a value it writes for the
value with other forms of sequences, to any sink, and finds the same size; and every type of a
program for which the one stands for an instance reads the other as the same instance. -/
theorem recast_agrees (h : v.Recast w) :
    (∀ (c : Codec) (sink sink' : Sink), c.encode v sink = .ok () sink' →
      c.encode w sink = .ok () sink' ∧
      ∃ size, c.exactSize v = .ok size ∧ c.exactSize w = .ok size) ∧
    ∀ (C : Catalog) (t : MessageType) (x : Instance),
      C.ofValue v t = .ok x → C.ofValue w t = .ok x := by
  constructor
  · intro c sink sink' encoded
    obtain ⟨bytes, yields, written⟩ := Codec.encode_eq_ok.mp encoded
    have yields' := Plan.yields_recast c.plan h yields
    exact ⟨Codec.encode_eq_ok.mpr ⟨bytes, yields', written⟩, bytes.length,
      Plan.exactSize_of_yields yields, Plan.exactSize_of_yields yields'⟩
  · exact fun C => Catalog.readsAs_recast h

/-- A record has a list of bytes, and an array inside of a list. With the array of the bytes and the
list of the elements instead it is written to the same bytes, has the same size, and is read as the
same instance. -/
theorem recast_agrees_nested :
    let v : Value := .record "P" [("raw", .list (scalars .uint8 [9])),
      ("runs", .list [.array .int8 [1, 2]])]
    let w : Value := .record "P" [("raw", .array .uint8 [9]),
      ("runs", .list [.list [.scalar .int8 1, .scalar .int8 2]])]
    let c : Codec := ⟨"P", .record "P" [("raw", .bulk .uint8), ("runs", .elements (.bulk .int8))],
      .standard⟩
    let C : Catalog := ⟨fun _ => ⟨[⟨"raw", .sequence .vector (.scalar .uint8), fun _ => .items [],
      false⟩, ⟨"runs", .sequence .deque (.sequence .vector (.scalar .int8)), fun _ => .items [],
      false⟩], true, .declared⟩, 1⟩
    let t : MessageType := .record ⟨"P", "P", 0⟩ []
    let x : Instance := .record [.items [.scalar .uint8 9],
      .items [.items [.scalar .int8 1, .scalar .int8 2]]]
    let sink : Sink := .growing [2, 1, 0, 0, 0, 2, 0, 0, 0, 1, 9, 0, 0, 0, 1]
    v.Recast w ∧ (c.encode v .empty = .ok () sink ∧ c.encode w .empty = .ok () sink) ∧
      (c.exactSize v = .ok 15 ∧ c.exactSize w = .ok 15) ∧
      C.ofValue v t = .ok x ∧ C.ofValue w t = .ok x := by
  intro v w c C t x sink
  have recast : v.Recast w := by
    refine .record rfl fun p q mem => ?_
    rcases List.mem_cons.mp mem with same | mem
    · obtain ⟨rfl, rfl⟩ := Prod.mk.inj same
      exact .packed (List.cons_ne_nil _ _)
    · obtain ⟨rfl, rfl⟩ := Prod.mk.inj (List.mem_singleton.mp mem)
      refine .list rfl fun v w inner => ?_
      obtain ⟨rfl, rfl⟩ := Prod.mk.inj (List.mem_singleton.mp inner)
      exact .listed .int8 [1, 2]
  have encoded : c.encode v .empty = .ok () sink := rfl
  have read : C.ofValue v t = .ok x := rfl
  obtain ⟨writes, reads⟩ := recast_agrees recast
  obtain ⟨encoded', size, found, found'⟩ := writes c _ _ encoded
  obtain rfl : 15 = size := Except.ok.inj found
  exact ⟨recast, ⟨encoded, encoded'⟩, ⟨found, found'⟩, read, reads C t x read⟩

end Value

end SchemaCodec
