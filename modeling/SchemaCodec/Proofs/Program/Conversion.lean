import SchemaCodec.Program.Conversion
import SchemaCodec.Proofs.Plan.Normal
import SchemaCodec.Proofs.Program.Typing

/-! # Values of types

A plan fits a type if it has a plan that fits for each part of the type, in whatever order it takes
the members of records. The value of an instance is then encoded, and its normal form is read as
the instance again.
-/

namespace SchemaCodec.Catalog

open MessageType

/-- The plan codes what the values of the type are made of. -/
inductive Fits (C : Catalog) : Plan → MessageType → Prop

  | scalar (k : Scalar) : Fits C (.scalar k) (.scalar k)

  | text : Fits C .text .string

  | bulk (k : Scalar) (storage : Storage) : Fits C (.bulk k) (.sequence storage (.scalar k))

  | elements {plan : Plan} {storage : Storage} {t : MessageType} : Fits C plan t →
      Fits C (.elements plan) (.sequence storage t)

  | record {typeName : String} {fields : List (String × Plan)} {id : RecordId}
      {args : List MessageType} : ((C.members id args).map Prod.fst).Nodup →
      (∀ m ∈ C.members id args, ∃ p ∈ fields, p.1 = m.1) →
      (∀ p ∈ fields, ∃ t, (p.1, t) ∈ C.members id args) →
      (∀ p ∈ fields, ∀ t, (p.1, t) ∈ C.members id args → Fits C p.2 t) →
      Fits C (.record typeName fields) (.record id args)

variable {C : Catalog} {types : Set MessageType} {limits : Limits} {plan : Plan}
  {t t' : MessageType} {xs : List Instance} {fs : List Field} {args : List MessageType}

theorem Fits.bound (h : C.Fits plan t) : Bound t := by
  induction h with
  | scalar k => exact .primitive _
  | text => exact .primitive _
  | bulk k storage => exact .sequence (.primitive _)
  | elements _ ih => exact .sequence ih
  | record => exact .record _ _

theorem Fits.of_alike (consistent : C.Consistent types) (h : C.Fits plan t) (alike : Alike t t')
    (occurs : C.Occurs types t) (occurs' : C.Occurs types t') : C.Fits plan t' := by
  induction h generalizing t' with
  | scalar k =>
    cases alike with
    | primitive => exact .scalar k
  | text =>
    cases alike with
    | primitive => exact .text
  | bulk k storage =>
    cases alike with
    | sequence alike =>
      cases alike with
      | primitive => exact .bulk k _
  | elements _ ih =>
    cases alike with
    | sequence alike => exact .elements (ih alike occurs.element occurs'.element)
  | record unique every only _ ih =>
    cases alike with
    | record same =>
      have members := consistent.unique _ _ _ _ occurs occurs' same
      refine .record (members.names_eq ▸ unique) ?_ ?_ ?_
      · intro m' mem'
        obtain ⟨m, mem, name_eq, -⟩ := partner_left members mem'
        obtain ⟨p, hp, named⟩ := every m mem
        exact ⟨p, hp, named.trans name_eq⟩
      · intro p hp
        obtain ⟨t, mem⟩ := only p hp
        obtain ⟨m', mem', name_eq, -⟩ := partner_right members mem
        exact ⟨m'.2, by rw [show p.1 = m'.1 from name_eq]; exact mem'⟩
      · intro p hp u' mem'
        obtain ⟨⟨name, u⟩, mem, rfl, alike⟩ := partner_left members mem'
        exact ih p hp u mem alike (occurs.member mem) (occurs'.member mem')

/-! ## Sequences -/

theorem toValues_eq_ok {vs : List Value} :
    C.toValues xs t = .ok vs ↔ List.Forall₂ (fun x v => C.toValue x t = .ok v) xs vs := by
  constructor
  · intro h
    induction xs generalizing vs with
    | nil =>
      rw [toValues] at h
      obtain rfl := Except.ok.inj h
      exact .nil
    | cons x xs ih =>
      rw [toValues] at h
      obtain ⟨v, head, h⟩ := bind_eq_ok.mp h
      obtain ⟨vs, tail, h⟩ := bind_eq_ok.mp h
      obtain rfl := return_eq_ok.mp h
      exact .cons head (ih tail)
  · intro h
    induction h with
    | nil => rw [toValues]
    | cons head _ ih =>
      rw [toValues]
      exact bind_eq_ok.mpr ⟨_, head, bind_eq_ok.mpr ⟨_, ih, rfl⟩⟩

theorem ofValues_eq_ok {vs : List Value}
    (h : List.Forall₂ (fun x v => C.ofValue v t = .ok (C.restore x t)) xs vs) :
    C.ofValues vs t = .ok (C.restoreAll xs t) := by
  induction h with
  | nil => rw [ofValues, restoreAll]
  | cons head _ ih =>
    rw [ofValues, restoreAll]
    exact bind_eq_ok.mpr ⟨_, head, bind_eq_ok.mpr ⟨_, ih, rfl⟩⟩

theorem scalars_of_belongs {k : Scalar} (h : ∀ x ∈ xs, C.Belongs x (.scalar k)) :
    ∃ ys : List k.Carrier, xs = ys.map (Instance.scalar k) := by
  induction xs with
  | nil => exact ⟨[], rfl⟩
  | cons x xs ih =>
    obtain ⟨ys, rfl⟩ := ih fun y hy => h y (List.mem_cons_of_mem x hy)
    have head := h x List.mem_cons_self
    cases head with
    | scalar _ y => exact ⟨y :: ys, rfl⟩

theorem mapM_scalar? {k : Scalar} (ys : List k.Carrier) :
    (ys.map (Instance.scalar k)).mapM (Instance.scalar? k) = some ys := by
  induction ys with
  | nil => rfl
  | cons y ys ih =>
    rw [List.map_cons, List.mapM_cons, ih]
    simp [Instance.scalar?]

theorem values_of_scalars {k : Scalar} (ys : List k.Carrier) :
    List.Forall₂ (fun x v => C.toValue x t = .ok v) (ys.map (Instance.scalar k))
      (Value.scalars k ys) := by
  rw [Value.scalars, List.forall₂_map_left_iff, List.forall₂_map_right_iff, List.forall₂_same]
  intro y _
  rw [toValue]

theorem toValue_scalars {k : Scalar} (ys : List k.Carrier) (storage : Storage) :
    ∃ v, C.toValue (.items (ys.map (.scalar k))) (.sequence storage (.scalar k)) = .ok v ∧
      (v = .array k ys ∨ v = .list (Value.scalars k ys)) := by
  rw [toValue.eq_def]
  dsimp only
  split
  · next same =>
    obtain ⟨⟨⟩⟩ := same
    rw [mapM_scalar?]
    exact ⟨_, rfl, .inl rfl⟩
  · rw [toValues_eq_ok.mpr (values_of_scalars ys)]
    exact ⟨_, rfl, .inr rfl⟩

theorem toValue_items {vs : List Value} {storage : Storage}
    (belongs : ∀ x ∈ xs, C.Belongs x t)
    (h : List.Forall₂ (fun x v => C.toValue x t = .ok v) xs vs) :
    ∃ v, C.toValue (.items xs) (.sequence storage t) = .ok v ∧ v.elements? = some vs := by
  by_cases kind : ∃ k : Scalar, t = .scalar k
  · obtain ⟨k, rfl⟩ := kind
    obtain ⟨ys, rfl⟩ := scalars_of_belongs belongs
    have same := (toValues_eq_ok.mpr (values_of_scalars ys)).symm.trans (toValues_eq_ok.mpr h)
    obtain rfl := Except.ok.inj same
    obtain ⟨v, converted, rfl | rfl⟩ := toValue_scalars (C := C) ys storage
    · exact ⟨_, converted, rfl⟩
    · exact ⟨_, converted, rfl⟩
  · rw [toValue.eq_def]
    dsimp only
    split
    · exact absurd ⟨_, rfl⟩ kind
    · rw [toValues_eq_ok.mpr h]
      exact ⟨_, rfl, rfl⟩

/-! ## Records -/

def serialized (xs : List Instance) (fs : List Field) : List (Instance × Field) :=
  (xs.zip fs).filter (!·.2.skipped)

theorem mem_serialized {p : Instance × Field} :
    p ∈ serialized xs fs ↔ p ∈ xs.zip fs ∧ p.2.skipped = false := by
  rw [serialized, List.mem_filter, Bool.not_eq_true']

theorem members_eq {id : RecordId} (length : xs.length = (C.declaration id).fields.length) :
    C.members id args =
      (serialized xs (C.declaration id).fields).map fun p =>
        (p.2.name, p.2.type.subst args) := by
  have fields : (xs.zip (C.declaration id).fields).map Prod.snd = (C.declaration id).fields :=
    List.map_snd_zip (Nat.le_of_eq length.symm)
  rw [members]
  conv_lhs => rw [← fields]
  rw [List.filter_map, List.map_map]
  rfl

theorem serialized_cons {x : Instance} {f : Field} : serialized (x :: xs) (f :: fs) =
    if f.skipped then serialized xs fs else (x, f) :: serialized xs fs := by
  cases skipped : f.skipped <;> simp [serialized, skipped]

theorem toFields_eq_ok {entries : List (String × Value)} :
    C.toFields xs fs args = .ok entries ↔
      List.Forall₂ (fun p entry => entry.1 = p.2.name ∧
        C.toValue p.1 (p.2.type.subst args) = .ok entry.2) (serialized xs fs) entries := by
  induction xs generalizing fs entries with
  | nil => rw [toFields.eq_def, serialized, List.zip_nil_left, List.filter_nil,
      List.forall₂_nil_left_iff, Except.ok.injEq, eq_comm]
  | cons x xs ih =>
    cases fs with
    | nil => rw [toFields.eq_def, serialized, List.zip_nil_right, List.filter_nil,
        List.forall₂_nil_left_iff, Except.ok.injEq, eq_comm]
    | cons f fs =>
      rw [serialized_cons, toFields]
      split
      · exact ih
      · constructor
        · intro h
          obtain ⟨v, head, h⟩ := bind_eq_ok.mp h
          obtain ⟨rest, tail, h⟩ := bind_eq_ok.mp h
          obtain rfl := return_eq_ok.mp h
          exact .cons ⟨rfl, head⟩ (ih.mp tail)
        · intro h
          cases h with
          | @cons _ entry _ entries head tail =>
            obtain ⟨name, v⟩ := entry
            obtain ⟨rfl, head⟩ := head
            exact bind_eq_ok.mpr ⟨v, head, bind_eq_ok.mpr ⟨entries, ih.mpr tail, rfl⟩⟩

theorem get?_fieldReaders (name : String) (fields : List (String × Value)) :
    Fields.get? name (C.fieldReaders fields) = (Fields.get? name fields).map C.ofValue := by
  induction fields with
  | nil => rw [fieldReaders]; rfl
  | cons field rest ih =>
    obtain ⟨n, v⟩ := field
    rw [fieldReaders, Fields.get?, Fields.get?]
    split
    · rfl
    · exact ih

/-- Fields that are all read as they were give the record as it was, apart from those that are never
serialized. -/
theorem assign_eq_ok {values : List (String × Value)} (length : xs.length = fs.length)
    (h : ∀ p ∈ serialized xs fs, ∃ v, Fields.get? p.2.name values = some v ∧
      C.ofValue v (p.2.type.subst args) = .ok (C.restore p.1 (p.2.type.subst args))) :
    C.assign (C.fieldReaders values) args fs = .ok (C.restoreFields xs fs args) := by
  induction xs generalizing fs with
  | nil =>
    obtain rfl := List.length_eq_zero_iff.mp length.symm
    rw [assign, restoreFields]
    simp
  | cons x xs ih =>
    cases fs with
    | nil => cases length
    | cons f fs =>
      have length' : xs.length = fs.length := Nat.succ.inj length
      rw [serialized_cons] at h
      rw [assign, restoreFields]
      split at h
      · next skipped =>
        rw [if_pos skipped, if_pos skipped]
        exact bind_eq_ok.mpr ⟨_, rfl, bind_eq_ok.mpr ⟨_, ih length' h, rfl⟩⟩
      · next kept =>
        obtain ⟨v, found, read⟩ := h (x, f) List.mem_cons_self
        have tail := ih length' fun p hp => h p (List.mem_cons_of_mem _ hp)
        rw [if_neg kept, if_neg kept, get?_fieldReaders, found]
        exact bind_eq_ok.mpr ⟨_, read, bind_eq_ok.mpr ⟨_, tail, rfl⟩⟩

/-! ## Round trips -/

/-- The value of the instance is within the limits and encoded by the plan, and its normal form is
read as the instance. -/
def Returns (C : Catalog) (limits : Limits) (plan : Plan) (t : MessageType) (x : Instance)
    (v : Value) : Prop :=
  C.toValue x t = .ok v ∧ v.Within limits ∧ (∃ bytes, (plan.emit v).Yields bytes) ∧
    C.ofValue (plan.normalize v) t = .ok (C.restore x t)

theorem restoreAll_scalars {k : Scalar} (ys : List k.Carrier) :
    C.restoreAll (ys.map (Instance.scalar k)) t = ys.map (Instance.scalar k) := by
  induction ys with
  | nil => rw [List.map_nil, restoreAll]
  | cons y ys ih => rw [List.map_cons, restoreAll, ih, restore.eq_def]

theorem returns_scalars {k : Scalar} {ys : List k.Carrier} {storage : Storage} {v : Value}
    (converted : C.toValue (.items (ys.map (.scalar k))) (.sequence storage (.scalar k)) = .ok v)
    (form : v = .array k ys ∨ v = .list (Value.scalars k ys)) (small : ys.length ≤ maxCount)
    (bound : ys.length ≤ limits.maxSequence) :
    C.Returns limits (.bulk k) (.sequence storage (.scalar k)) (.items (ys.map (.scalar k))) v := by
  refine ⟨converted, ?_, ⟨_, Plan.yields_bulk.mpr ⟨ys, form, small, rfl⟩⟩, ?_⟩
  · have items : v.elements? = some (Value.scalars k ys) := by
      rcases form with rfl | rfl
      · rfl
      · rfl
    refine Plan.within_of_elements items ?_ fun w hw => ?_
    · rwa [Value.scalars, List.length_map]
    · obtain ⟨y, -, rfl⟩ := List.mem_map.mp hw
      exact .scalar k y
  · rw [Plan.normalize, Plan.arrayForm_eq form, ofValue, elementsOfArray, if_pos rfl, restore,
      restoreAll_scalars]
    rfl

theorem returns_items {storage : Storage} {vs : List Value} {v : Value}
    (converted : C.toValue (.items xs) (.sequence storage t) = .ok v)
    (items : v.elements? = some vs) (small : xs.length ≤ maxCount)
    (bound : xs.length ≤ limits.maxSequence)
    (all : List.Forall₂ (C.Returns limits plan t) xs vs) :
    C.Returns limits (.elements plan) (.sequence storage t) (.items xs) v := by
  have length : xs.length = vs.length := all.length_eq
  refine ⟨converted, ?_, ?_, ?_⟩
  · refine Plan.within_of_elements items (length ▸ bound) fun w hw => ?_
    obtain ⟨x, -, -, within, -⟩ := partner_left all hw
    exact within
  · obtain ⟨pieces, yields⟩ : ∃ pieces, List.Forall₂
        (fun w piece => (plan.emit w).Yields piece) vs pieces := by
      refine exists_partners fun w hw => ?_
      obtain ⟨x, -, -, -, yields, -⟩ := partner_left all hw
      exact yields
    exact ⟨_, Plan.yields_elements.mpr ⟨vs, pieces, items, length ▸ small, yields, rfl⟩⟩
  · rw [Plan.normalize, items, restore]
    dsimp only
    rw [ofValue, ofValues_eq_ok]
    · rfl
    · exact List.forall₂_map_right_iff.mpr (all.imp fun _ _ h => h.2.2.2)

theorem yields_entries {fields : List (String × Plan)} {id : RecordId}
    (only : ∀ q ∈ fields, ∃ t, (q.1, t) ∈ C.members id args)
    (same : ∀ p ∈ fields, ∀ q ∈ fields, p.1 = q.1 → p.2 = q.2)
    (length : xs.length = (C.declaration id).fields.length)
    {entries : List (String × Value)}
    (found : ∀ entry ∈ entries, Fields.get? entry.1 (Fields.ofList entries) = some entry.2)
    (all : List.Forall₂ (fun p entry => entry.1 = p.2.name ∧ ∃ plan, (p.2.name, plan) ∈ fields ∧
      C.Returns limits plan (p.2.type.subst args) p.1 entry.2)
      (serialized xs (C.declaration id).fields) entries) :
    ∃ pieces, List.Forall₂ (fun field piece => ∃ w,
      Fields.get? field.1 (Fields.ofList entries) = some w ∧ (field.2.emit w).Yields piece)
      fields pieces := by
  apply exists_partners
  intro field hfield
  obtain ⟨t, mem⟩ := only field hfield
  rw [members_eq length] at mem
  obtain ⟨p, hp, field_eq⟩ := List.mem_map.mp mem
  obtain ⟨entry, hentry, named, plan, hplan, -, -, ⟨bytes, yields⟩, -⟩ := partner_right all hp
  have name_eq : p.2.name = field.1 := congrArg Prod.fst field_eq
  obtain rfl : plan = field.2 := same _ hplan field hfield name_eq
  refine ⟨bytes, entry.2, ?_, yields⟩
  rw [← name_eq, ← named]
  exact found entry hentry

theorem returns_record {typeName : String} {fields : List (String × Plan)} {id : RecordId}
    (unique : ((C.members id args).map Prod.fst).Nodup)
    (only : ∀ q ∈ fields, ∃ t, (q.1, t) ∈ C.members id args)
    (same : ∀ p ∈ fields, ∀ q ∈ fields, p.1 = q.1 → p.2 = q.2)
    (length : xs.length = (C.declaration id).fields.length)
    {entries : List (String × Value)}
    (all : List.Forall₂ (fun p entry => entry.1 = p.2.name ∧ ∃ plan, (p.2.name, plan) ∈ fields ∧
      C.Returns limits plan (p.2.type.subst args) p.1 entry.2)
      (serialized xs (C.declaration id).fields) entries) :
    C.Returns limits (.record typeName fields) (.record id args) (.record xs)
      (.record (record id args).name (Fields.ofList entries)) := by
  have names : entries.map Prod.fst = (C.members id args).map Prod.fst := by
    rw [members_eq length, List.map_map]
    exact (map_eq_map (all.imp fun _ _ h => h.1.symm)).symm
  have found : ∀ entry ∈ entries,
      Fields.get? entry.1 (Fields.ofList entries) = some entry.2 := fun entry mem =>
    Fields.get?_ofList_of_mem (names ▸ unique) mem
  have converted : List.Forall₂ (fun p entry => entry.1 = p.2.name ∧
      C.toValue p.1 (p.2.type.subst args) = .ok entry.2)
      (serialized xs (C.declaration id).fields) entries := by
    apply all.imp
    rintro p entry ⟨named, plan, -, converted, -⟩
    exact ⟨named, converted⟩
  refine ⟨?_, ?_, ?_, ?_⟩
  · rw [toValue, toFields_eq_ok.mpr converted]
    rfl
  · refine .record fun entry mem => ?_
    obtain ⟨p, -, -, plan, -, -, within, -⟩ := partner_left all (Fields.mem_of_mem_ofList mem)
    exact within
  · obtain ⟨pieces, yields⟩ := yields_entries only same length found all
    exact ⟨_, Plan.yields_record.mpr ⟨_, _, rfl, Plan.yields_emitFields.mpr ⟨pieces, yields, rfl⟩⟩⟩
  · rw [Plan.normalize, restore]
    dsimp only [Value.record?]
    rw [ofValue, assign_eq_ok length]
    · rfl
    · intro p hp
      obtain ⟨entry, hentry, named, plan, hplan, -, -, -, read⟩ := partner_right all hp
      refine ⟨plan.normalize entry.2, Plan.get?_normalizeFields same hplan ?_, read⟩
      rw [← named]
      exact found entry hentry

/-- The instances of a type return through any plan that fits the type. -/
theorem exists_returns {x : Instance} (fits : C.Fits plan t) (coherent : plan.Coherent)
    (admits : C.Admits limits x t) : ∃ v, C.Returns limits plan t x v := by
  induction x generalizing plan t with
  | scalar k y =>
    cases admits with
    | scalar =>
      cases fits with
      | scalar =>
        refine ⟨.scalar k y, by rw [toValue], .scalar k y,
          ⟨_, Plan.yields_scalar.mpr ⟨y, rfl, rfl⟩⟩, ?_⟩
        rw [Plan.normalize, ofValue, if_pos rfl, restore.eq_def]
  | text s =>
    cases admits with
    | text bound small =>
      cases fits with
      | text =>
        refine ⟨.text s, by rw [toValue], .text bound,
          ⟨_, Plan.yields_text.mpr ⟨s, rfl, small, rfl⟩⟩, ?_⟩
        rw [Plan.normalize, ofValue, restore.eq_def]
  | decimal bits =>
    cases admits with
    | decimal => cases fits
  | placeholder =>
    cases admits with
    | placeholder => cases fits
  | items xs ih =>
    cases admits with
    | items bound small admits =>
      cases fits with
      | bulk k storage =>
        obtain ⟨ys, rfl⟩ := scalars_of_belongs fun x hx => (admits x hx).belongs
        rw [List.length_map] at bound small
        obtain ⟨v, converted, form⟩ := toValue_scalars (C := C) ys _
        exact ⟨v, returns_scalars converted form small bound⟩
      | elements inner =>
        cases coherent with
        | elements coherent =>
          obtain ⟨vs, all⟩ := exists_partners fun x hx => ih x hx inner coherent (admits x hx)
          obtain ⟨v, converted, items⟩ :=
            toValue_items (fun x hx => (admits x hx).belongs) (all.imp fun _ _ h => h.1)
          exact ⟨v, returns_items converted items small bound all⟩
  | record xs ih =>
    cases admits with
    | @record _ id args length admits =>
      cases fits with
      | @record typeName fields _ _ unique every only inner =>
        cases coherent with
        | record coherent same =>
          have each : ∀ p ∈ serialized xs (C.declaration id).fields, ∃ entry : String × Value,
              entry.1 = p.2.name ∧ ∃ plan, (p.2.name, plan) ∈ fields ∧
                C.Returns limits plan (p.2.type.subst args) p.1 entry.2 := by
            intro p hp
            have mem : (p.2.name, p.2.type.subst args) ∈ C.members id args := by
              rw [members_eq length]
              exact List.mem_map_of_mem hp
            obtain ⟨⟨name, plan⟩, hq, rfl⟩ := every _ mem
            obtain ⟨zipped, kept⟩ := mem_serialized.mp hp
            obtain ⟨v, returns⟩ := ih p.1 (List.of_mem_zip zipped).1 (inner _ hq _ mem)
              (coherent _ hq) (admits p zipped kept)
            exact ⟨(_, v), rfl, plan, hq, returns⟩
          obtain ⟨entries, all⟩ := exists_partners each
          exact ⟨_, returns_record unique only same length all⟩

end SchemaCodec.Catalog
