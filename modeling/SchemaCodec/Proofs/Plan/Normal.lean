import SchemaCodec.Proofs.Plan.Choice
import SchemaCodec.Proofs.Plan.Decode
import SchemaCodec.Proofs.Plan.Encode
import SchemaCodec.Proofs.Text.Utf8
import SchemaCodec.Proofs.Value.Fields

/-! # Normal forms

Several values have the same encoding: a sequence may be an array or a list, and a record may have
further fields or another type name. Decoding gives back the normal form that belongs to the plan.
-/

namespace SchemaCodec

/-- Every count in the value is within the limits. -/
inductive Value.Within (limits : Limits) : Value → Prop

  | scalar (k : Scalar) (x : k.Carrier) : Within limits (.scalar k x)

  | text {s : String} : (Utf8.encode s).length ≤ limits.maxText → Within limits (.text s)

  | array {k : Scalar} {xs : List k.Carrier} : xs.length ≤ limits.maxSequence →
      Within limits (.array k xs)

  | list {items : List Value} : items.length ≤ limits.maxSequence →
      (∀ v ∈ items, Within limits v) → Within limits (.list items)

  | record {typeName : String} {fields : List (String × Value)} :
      (∀ p ∈ fields, Within limits p.2) → Within limits (.record typeName fields)

namespace Plan

def arrayForm (k : Scalar) : Value → Value
  | .list items => .array k (items.filterMap (Value.scalar? k))
  | v => v

mutual

/-- The value that decoding gives back for a value: bulk sequences are arrays, other sequences are
lists, and records have the name and the members of their plan. -/
def normalize : Plan → Value → Value
  | scalar _, v => v
  | text, v => v
  | bulk k, v => arrayForm k v
  | elements element, v =>
    match v.elements? with
    | some items => .list (items.map (normalize element))
    | none => v
  | record typeName fields, v =>
    match v.record? with
    | some r => .record typeName (Fields.ofList (normalizeFields fields r.fields))
    | none => v

def normalizeFields : List (String × Plan) → List (String × Value) → List (String × Value)
  | [], _ => []
  | (name, plan) :: rest, values =>
    match Fields.get? name values with
    | some v => (name, normalize plan v) :: normalizeFields rest values
    | none => normalizeFields rest values

end

variable {limits : Limits} {plan : Plan} {v : Value} {bytes : List UInt8}

theorem filterMap_scalars (k : Scalar) (xs : List k.Carrier) :
    (Value.scalars k xs).filterMap (Value.scalar? k) = xs := by
  induction xs with
  | nil => rfl
  | cons x xs ih =>
    rw [Value.scalars] at ih ⊢
    rw [List.map_cons, List.filterMap_cons, ih]
    simp [Value.scalar?]

theorem arrayForm_eq {k : Scalar} {xs : List k.Carrier}
    (form : v = .array k xs ∨ v = .list (Value.scalars k xs)) : arrayForm k v = .array k xs := by
  rcases form with rfl | rfl
  · rfl
  · rw [arrayForm, filterMap_scalars]

theorem within_elements {items : List Value} (h : v.Within limits)
    (found : v.elements? = some items) :
    items.length ≤ limits.maxSequence ∧ ∀ w ∈ items, w.Within limits := by
  cases h with
  | scalar => cases found
  | text => cases found
  | record => cases found
  | array small =>
    obtain rfl := Option.some.inj found
    constructor
    · rwa [Value.scalars, List.length_map]
    · intro w hw
      obtain ⟨x, -, rfl⟩ := List.mem_map.mp hw
      exact .scalar _ x
  | list small all =>
    obtain rfl := Option.some.inj found
    exact ⟨small, all⟩

theorem within_of_elements {items : List Value} (found : v.elements? = some items)
    (small : items.length ≤ limits.maxSequence) (all : ∀ w ∈ items, w.Within limits) :
    v.Within limits := by
  cases v with
  | array k xs =>
    obtain rfl := Option.some.inj found
    rw [Value.scalars, List.length_map] at small
    exact .array small
  | list items =>
    obtain rfl := Option.some.inj found
    exact .list small all
  | _ => cases found

theorem reads_fields {fields : List (String × Plan)} {values : List (String × Value)}
    {pieces : List (List UInt8)}
    (ih : ∀ p ∈ fields, ∀ w b, (emit p.2 w).Yields b → w.Within limits →
      Reads limits p.2 b (normalize p.2 w))
    (within : ∀ p ∈ values, p.2.Within limits)
    (all : List.Forall₂ (fun field piece => ∃ w, Fields.get? field.1 values = some w ∧
      (emit field.2 w).Yields piece) fields pieces) :
    ReadsFields limits fields pieces.flatten (normalizeFields fields values) := by
  induction all with
  | nil =>
    rw [normalizeFields, ReadsFields]
    exact ⟨rfl, rfl⟩
  | @cons field piece fields pieces head _ rest =>
    obtain ⟨name, plan⟩ := field
    obtain ⟨w, found, head⟩ := head
    rw [normalizeFields, found, ReadsFields]
    refine ⟨piece, pieces.flatten, _, _, rfl, rfl, ?_, ?_⟩
    · exact ih _ List.mem_cons_self w piece head (within _ (Fields.mem_of_get? found))
    · exact rest fun p hp => ih p (List.mem_cons_of_mem _ hp)

theorem reads_items {element : Plan} {items : List Value} {pieces : List (List UInt8)}
    (ih : ∀ w ∈ items, ∀ b, (emit element w).Yields b → Reads limits element b (normalize element w))
    (all : List.Forall₂ (fun w piece => (emit element w).Yields piece) items pieces) :
    List.Forall₂ (Reads limits element) pieces (items.map (normalize element)) := by
  induction all with
  | nil => exact .nil
  | cons head _ rest =>
    exact .cons (ih _ List.mem_cons_self _ head) (rest fun w hw => ih w (List.mem_cons_of_mem _ hw))

theorem reads_normalize (h : (emit plan v).Yields bytes) (within : v.Within limits) :
    Reads limits plan bytes (normalize plan v) := by
  induction plan generalizing v bytes with
  | scalar k =>
    obtain ⟨x, rfl, rfl⟩ := yields_scalar.mp h
    rw [Reads, normalize]
    exact ⟨x, rfl, k.reads_toBytes x⟩
  | text =>
    obtain ⟨s, rfl, small, rfl⟩ := yields_text.mp h
    rw [Reads, normalize]
    cases within with
    | text bound => exact ⟨s, _, _, rfl, rfl, ⟨bound, small, rfl⟩, Utf8.decode_encode s⟩
  | bulk k =>
    obtain ⟨xs, form, small, rfl⟩ := yields_bulk.mp h
    have bound : xs.length ≤ limits.maxSequence := by
      rcases form with rfl | rfl
      · cases within with
        | array bound => exact bound
      · cases within with
        | list bound => rwa [Value.scalars, List.length_map] at bound
    rw [Reads, normalize, arrayForm_eq form]
    refine ⟨xs, _, xs.map k.toBytes, rfl, ?_, ⟨bound, small, rfl⟩, k.reads_run xs⟩
    rw [Scalar.runBytes, List.flatMap_def]
  | elements element ih =>
    obtain ⟨items, pieces, found, small, all, rfl⟩ := yields_elements.mp h
    obtain ⟨bound, inner⟩ := within_elements within found
    rw [Reads, normalize, found]
    refine ⟨_, _, pieces, rfl, rfl, ?_, reads_items (fun w hw b hb => ih hb (inner w hw)) all⟩
    rw [List.length_map]
    exact ⟨bound, small, rfl⟩
  | record typeName fields ih =>
    obtain ⟨other, values, rfl, h⟩ := yields_record.mp h
    obtain ⟨pieces, all, rfl⟩ := yields_emitFields.mp h
    rw [Reads, normalize]
    cases within with
    | record inner => exact ⟨_, rfl, reads_fields (fun p hp w b => ih p hp) inner all⟩

/-! ## Normal forms are fixed -/

theorem mem_normalizeFields {fields : List (String × Plan)} {values : List (String × Value)}
    {name : String} {y : Value} : (name, y) ∈ normalizeFields fields values ↔
      ∃ plan w, (name, plan) ∈ fields ∧ Fields.get? name values = some w ∧
        y = normalize plan w := by
  induction fields with
  | nil => simp [normalizeFields]
  | cons field rest ih =>
    obtain ⟨n, p⟩ := field
    rw [normalizeFields]
    constructor
    · intro h
      cases found : Fields.get? n values with
      | none =>
        rw [found] at h
        obtain ⟨plan, w, mem, get, same⟩ := ih.mp h
        exact ⟨plan, w, List.mem_cons_of_mem _ mem, get, same⟩
      | some v =>
        rw [found] at h
        rcases List.mem_cons.mp h with same | h
        · obtain ⟨rfl, rfl⟩ := Prod.mk.inj same
          exact ⟨p, v, List.mem_cons_self, found, rfl⟩
        · obtain ⟨plan, w, mem, get, same⟩ := ih.mp h
          exact ⟨plan, w, List.mem_cons_of_mem _ mem, get, same⟩
    · rintro ⟨plan, w, mem, get, rfl⟩
      rcases List.mem_cons.mp mem with same | mem
      · obtain ⟨rfl, rfl⟩ := Prod.mk.inj same
        rw [get]
        exact List.mem_cons_self
      · have tail := ih.mpr ⟨plan, w, mem, get, rfl⟩
        split
        · exact List.mem_cons_of_mem _ tail
        · exact tail

theorem get?_normalizeFields {fields : List (String × Plan)} {values : List (String × Value)}
    (same : ∀ p ∈ fields, ∀ q ∈ fields, p.1 = q.1 → p.2 = q.2) {name : String} {plan : Plan}
    {w : Value} (mem : (name, plan) ∈ fields) (found : Fields.get? name values = some w) :
    Fields.get? name (Fields.ofList (normalizeFields fields values)) =
      some (normalize plan w) := by
  refine Fields.get?_ofList (mem_normalizeFields.mpr ⟨plan, w, mem, found, rfl⟩) ?_
  intro y hy
  obtain ⟨plan', w', mem', found', rfl⟩ := mem_normalizeFields.mp hy
  obtain rfl : plan' = plan := same _ mem' _ mem rfl
  obtain rfl := Option.some.inj (found'.symm.trans found)
  rfl

theorem normalizeFields_fixed {fields : List (String × Plan)}
    {values others : List (String × Value)}
    (h : ∀ p ∈ fields, ∃ w, Fields.get? p.1 values = some w ∧
      Fields.get? p.1 others = some (normalize p.2 w) ∧
      normalize p.2 (normalize p.2 w) = normalize p.2 w) :
    normalizeFields fields others = normalizeFields fields values := by
  induction fields with
  | nil => rw [normalizeFields, normalizeFields]
  | cons field rest ih =>
    obtain ⟨name, plan⟩ := field
    obtain ⟨w, found, found', fixed⟩ := h _ List.mem_cons_self
    rw [normalizeFields, normalizeFields, found, found']
    dsimp only
    rw [fixed, ih fun p hp => h p (List.mem_cons_of_mem _ hp)]

theorem fixed_items {element : Plan} {items : List Value} {pieces : List (List UInt8)}
    (ih : ∀ w b, (emit element w).Yields b → (emit element (normalize element w)).Yields b ∧
      normalize element (normalize element w) = normalize element w)
    (all : List.Forall₂ (fun w piece => (emit element w).Yields piece) items pieces) :
    List.Forall₂ (fun w piece => (emit element w).Yields piece)
        (items.map (normalize element)) pieces ∧
      (items.map (normalize element)).map (normalize element) =
        items.map (normalize element) := by
  induction all with
  | nil => exact ⟨.nil, rfl⟩
  | cons head _ rest =>
    obtain ⟨yields, fixed⟩ := ih _ _ head
    refine ⟨.cons yields rest.1, ?_⟩
    rw [List.map_cons, List.map_cons, fixed, rest.2]

/-- The normal form of a value has the same encoding, and it is its own normal form. -/
theorem normalize_fixed (coherent : Coherent plan) (h : (emit plan v).Yields bytes) :
    (emit plan (normalize plan v)).Yields bytes ∧
      normalize plan (normalize plan v) = normalize plan v := by
  induction plan generalizing v bytes with
  | scalar k =>
    rw [normalize, normalize]
    exact ⟨h, rfl⟩
  | text =>
    rw [normalize, normalize]
    exact ⟨h, rfl⟩
  | bulk k =>
    obtain ⟨xs, form, small, rfl⟩ := yields_bulk.mp h
    rw [normalize, arrayForm_eq form, normalize]
    exact ⟨yields_bulk.mpr ⟨xs, .inl rfl, small, rfl⟩, rfl⟩
  | elements element ih =>
    obtain ⟨items, pieces, found, small, all, rfl⟩ := yields_elements.mp h
    cases coherent with
    | elements inner =>
      obtain ⟨yields, fixed⟩ := fixed_items (fun w b => ih inner) all
      rw [normalize, found]
      dsimp only
      constructor
      · refine yields_elements.mpr ⟨_, pieces, rfl, ?_, yields, ?_⟩
        · rwa [List.length_map]
        · rw [List.length_map]
      · rw [normalize]
        exact congrArg Value.list fixed
  | record typeName fields ih =>
    obtain ⟨other, values, rfl, h⟩ := yields_record.mp h
    obtain ⟨pieces, all, rfl⟩ := yields_emitFields.mp h
    cases coherent with
    | record inner same =>
      have each : List.Forall₂ (fun field piece => ∃ w, Fields.get? field.1 values = some w ∧
          Fields.get? field.1 (Fields.ofList (normalizeFields fields values)) =
            some (normalize field.2 w) ∧
          (emit field.2 (normalize field.2 w)).Yields piece ∧
          normalize field.2 (normalize field.2 w) = normalize field.2 w) fields pieces := by
        refine ((List.forall₂_and_left _ _).mpr ⟨fun _ mem => mem, all⟩).imp ?_
        rintro field piece ⟨mem, w, found, yields⟩
        obtain ⟨yields', fixed⟩ := ih field mem (inner field mem) yields
        exact ⟨w, found, get?_normalizeFields same mem found, yields', fixed⟩
      rw [normalize]
      dsimp only [Value.record?]
      constructor
      · refine yields_record.mpr ⟨_, _, rfl, yields_emitFields.mpr ⟨pieces, each.imp ?_, rfl⟩⟩
        rintro field piece ⟨w, -, found, yields, -⟩
        exact ⟨_, found, yields⟩
      · rw [normalize]
        dsimp only [Value.record?]
        rw [normalizeFields_fixed]
        intro p hp
        obtain ⟨piece, -, w, found, found', -, fixed⟩ := partner_right each hp
        exact ⟨w, found, found', fixed⟩

end Plan

end SchemaCodec
