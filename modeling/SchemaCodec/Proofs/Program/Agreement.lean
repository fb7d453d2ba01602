import Mathlib.Data.List.Sort
import SchemaCodec.Proofs.Engine.SameEncoding
import SchemaCodec.Proofs.Plan.Decode
import SchemaCodec.Proofs.Program.Conversion

/-! # Plans of one type agree

Plans that fit one type say the same bytes for every instance of the type and read every piece as
the same instance, if the nodes that they were compiled from have their children in the order of the
names. They may differ in how they code arrays of scalars: in one piece, or one by one.
-/

namespace SchemaCodec.Catalog

open MessageType Plan

variable {C : Catalog} {limits : Limits} {p q : Plan} {t : MessageType} {x : Instance}
  {xs : List Instance} {v : Value} {k : Scalar} {storage : Storage} {id : RecordId}
  {args : List MessageType} {piece : List UInt8} {name name' : String}
  {fields fields' : List (String × Plan)}

theorem ascending_names (ordered : (Plan.record name fields).CompiledFrom Node.Ordered) :
    (fields.map Prod.fst).Pairwise (· < ·) := by
  cases ordered with
  | record hn all _ =>
    obtain ⟨names, same, ascending⟩ := hn
    rw [names_eq all] at same
    rwa [List.map_injective_iff.mpr (Option.some_injective String) same]

/-- Plans of one record type whose members are in ascending order have them in the same order. -/
theorem same_order (fits : C.Fits (.record name fields) (.record id args))
    (fits' : C.Fits (.record name' fields') (.record id args))
    (ordered : (Plan.record name fields).CompiledFrom Node.Ordered)
    (ordered' : (Plan.record name' fields').CompiledFrom Node.Ordered) :
    fields.map Prod.fst = fields'.map Prod.fst := by
  have members : ∀ {name fields}, C.Fits (.record name fields) (.record id args) →
      ∀ n, n ∈ fields.map Prod.fst ↔ n ∈ (C.members id args).map Prod.fst := by
    intro name fields fits n
    cases fits with
    | record _ every only _ =>
      constructor
      · intro h
        obtain ⟨field, hfield, rfl⟩ := List.mem_map.mp h
        obtain ⟨t, mem⟩ := only field hfield
        exact List.mem_map.mpr ⟨_, mem, rfl⟩
      · intro h
        obtain ⟨m, mem, rfl⟩ := List.mem_map.mp h
        obtain ⟨field, hfield, same⟩ := every m mem
        exact List.mem_map.mpr ⟨field, hfield, same⟩
  have irrefl : Std.Irrefl (fun a b : String => a < b) := ⟨String.lt_irrefl⟩
  have antisymm : Std.Antisymm (fun a b : String => a < b) :=
    ⟨fun a b less greater => absurd (String.lt_trans less greater) (String.lt_irrefl a)⟩
  exact (ascending_names ordered).eq_of_mem_iff (ascending_names ordered') fun n =>
    (members fits n).trans (members fits' n).symm

/-! ## Writing -/

theorem form_of_scalars (belongs : C.Belongs x (.sequence storage (.scalar k)))
    (converted : C.toValue x (.sequence storage (.scalar k)) = .ok v) :
    (∃ ys, v = .array k ys) ∨ ∃ items, v = .list items := by
  cases belongs with
  | items belongs =>
    obtain ⟨ys, rfl⟩ := scalars_of_belongs belongs
    obtain ⟨w, converted', form⟩ := toValue_scalars (C := C) ys storage
    obtain rfl := Except.ok.inj (converted.symm.trans converted')
    exact form.imp (fun same => ⟨ys, same⟩) fun same => ⟨_, same⟩

theorem list_of_items (other : ∀ k, t ≠ .scalar k)
    (converted : C.toValue (.items xs) (.sequence storage t) = .ok v) :
    ∃ vs, v = .list vs ∧ List.Forall₂ (fun x v => C.toValue x t = .ok v) xs vs := by
  rw [toValue.eq_def] at converted
  dsimp only at converted
  split at converted
  · exact absurd rfl (other _)
  · obtain ⟨vs, all, rfl⟩ := map_eq_ok.mp converted
    exact ⟨vs, rfl, toValues_eq_ok.mp all⟩

theorem members_of_record (unique : ((C.members id args).map Prod.fst).Nodup)
    (belongs : C.Belongs (.record xs) (.record id args))
    (converted : C.toValue (.record xs) (.record id args) = .ok v) :
    ∃ other values, v = .record other values ∧ ∀ n t, (n, t) ∈ C.members id args →
      ∃ y w, C.Belongs y t ∧ C.toValue y t = .ok w ∧ Fields.get? n values = some w := by
  cases belongs with
  | record length each =>
    rw [toValue] at converted
    obtain ⟨entries, all, rfl⟩ := map_eq_ok.mp converted
    rw [toFields_eq_ok] at all
    refine ⟨_, _, rfl, fun n t mem => ?_⟩
    have names : entries.map Prod.fst = (C.members id args).map Prod.fst := by
      rw [members_eq length, List.map_map]
      exact (map_eq_map (all.imp fun _ _ h => h.1.symm)).symm
    rw [members_eq length] at mem
    obtain ⟨y, hy, same⟩ := List.mem_map.mp mem
    obtain ⟨rfl, rfl⟩ := Prod.mk.inj same
    obtain ⟨⟨n, w⟩, hentry, rfl, converted⟩ := partner_right all hy
    obtain ⟨zipped, kept⟩ := mem_serialized.mp hy
    exact ⟨y.1, w, each y zipped kept, converted,
      Fields.get?_ofList_of_mem (names ▸ unique) hentry⟩

theorem sameEncoding (fits : C.Fits p t) (fits' : C.Fits q t)
    (ordered : p.CompiledFrom Node.Ordered) (ordered' : q.CompiledFrom Node.Ordered)
    (belongs : C.Belongs x t) (converted : C.toValue x t = .ok v) : p.SameEncoding q v := by
  induction fits generalizing q x v with
  | scalar k =>
    cases fits' with
    | scalar => exact .refl _ _
  | text =>
    cases fits' with
    | text => exact .refl _ _
  | bulk k storage =>
    have form := form_of_scalars belongs converted
    cases fits' with
    | bulk => exact .refl _ _
    | elements inner =>
      cases inner with
      | scalar => exact sameEncoding_bulk form
  | @elements p storage t fits ih =>
    cases fits' with
    | bulk =>
      have form := form_of_scalars belongs converted
      cases fits with
      | scalar => exact (sameEncoding_bulk form).symm
    | @elements q _ _ fits' =>
      by_cases scalar : ∃ k, t = .scalar k
      · obtain ⟨k, rfl⟩ := scalar
        cases fits with
        | scalar =>
          cases fits' with
          | scalar => exact .refl _ _
      · cases belongs with
        | items belongs =>
          cases ordered with
          | elements ordered =>
            cases ordered' with
            | elements ordered' =>
              obtain ⟨vs, rfl, all⟩ := list_of_items (fun k same => scalar ⟨k, same⟩) converted
              refine sameEncoding_elements rfl fun w hw => ?_
              obtain ⟨y, hy, converted⟩ := partner_left all hw
              exact ih fits' ordered ordered' (belongs y hy) converted
  | @record name fields id args unique every only inner ih =>
    cases belongs with
    | record length each =>
      cases fits' with
      | @record name' fields' _ _ unique' every' only' inner' =>
        have order := same_order (.record unique every only inner)
          (.record unique' every' only' inner') ordered ordered'
        obtain ⟨other, values, rfl, found⟩ :=
          members_of_record unique (.record length each) converted
        refine sameEncoding_record ((forall₂_of_map_eq order).imp ?_)
        rintro ⟨n, p⟩ ⟨n', q⟩ ⟨same, hp, hq⟩
        obtain rfl : n = n' := same
        obtain ⟨t, mem⟩ := only _ hp
        obtain ⟨y, w, belongs, converted, get⟩ := found n t mem
        refine ⟨rfl, fun w' get' => ?_, fun none => ?_⟩
        · obtain rfl := Option.some.inj (get.symm.trans get')
          exact ih _ hp t mem (inner' _ hq t mem) (ordered.inner _ hp) (ordered'.inner _ hq) belongs
            converted
        · cases get.symm.trans none

/-! ## Reading -/

theorem ofValue_scalars (k : Scalar) (ys : List k.Carrier) (storage : Storage) :
    C.ofValue (.list (Value.scalars k ys)) (.sequence storage (.scalar k)) =
      C.ofValue (.array k ys) (.sequence storage (.scalar k)) := by
  have each : C.ofValues (Value.scalars k ys) (.scalar k) = .ok (ys.map (.scalar k)) := by
    induction ys with
    | nil =>
      rw [Value.scalars, List.map_nil, ofValues]
      rfl
    | cons y ys ih =>
      rw [Value.scalars] at ih ⊢
      rw [List.map_cons, ofValues, ofValue, if_pos rfl, ih]
      rfl
  rw [ofValue, ofValue, each, elementsOfArray, if_pos rfl]

theorem reads_bulk (storage : Storage) (h : Reads limits (.bulk k) piece v) :
    ∃ w, Reads limits (.elements (.scalar k)) piece w ∧
      C.ofValue w (.sequence storage (.scalar k)) =
        C.ofValue v (.sequence storage (.scalar k)) := by
  obtain ⟨ys, rfl, read⟩ := reads_bulk_iff.mp h
  exact ⟨_, read, ofValue_scalars k ys storage⟩

theorem reads_elements_scalar (storage : Storage)
    (h : Reads limits (.elements (.scalar k)) piece v) :
    ∃ w, Reads limits (.bulk k) piece w ∧ C.ofValue w (.sequence storage (.scalar k)) =
      C.ofValue v (.sequence storage (.scalar k)) := by
  obtain ⟨ys, rfl, read⟩ := reads_elements_scalar_iff.mp h
  exact ⟨_, read, (ofValue_scalars k ys storage).symm⟩

theorem ofValues_congr {vs ws : List Value}
    (h : List.Forall₂ (fun v w => C.ofValue w t = C.ofValue v t) vs ws) :
    C.ofValues ws t = C.ofValues vs t := by
  induction h with
  | nil => rfl
  | cons head _ ih => rw [ofValues, ofValues, head, ih]

theorem assign_congr {fs : List Field} {values values' : List (String × Value)}
    (h : ∀ f ∈ fs, f.skipped = false → ∃ v w, Fields.get? f.name values = some v ∧
      Fields.get? f.name values' = some w ∧
      C.ofValue w (f.type.subst args) = C.ofValue v (f.type.subst args)) :
    C.assign (C.fieldReaders values') args fs = C.assign (C.fieldReaders values) args fs := by
  induction fs with
  | nil => rw [assign, assign]
  | cons f fs ih =>
    rw [assign, assign, ih fun g hg => h g (List.mem_cons_of_mem f hg)]
    cases skipped : f.skipped with
    | true => rfl
    | false =>
      obtain ⟨v, w, found, found', same⟩ := h f List.mem_cons_self skipped
      rw [get?_fieldReaders, get?_fieldReaders, found, found', if_neg Bool.false_ne_true,
        if_neg Bool.false_ne_true]
      dsimp only [Option.map_some]
      rw [same]

/-- Plans that fit one type read every piece as the same instance of the type. -/
theorem reads_agree (fits : C.Fits p t) (fits' : C.Fits q t)
    (ordered : p.CompiledFrom Node.Ordered) (ordered' : q.CompiledFrom Node.Ordered)
    (h : Reads limits p piece v) :
    ∃ w, Reads limits q piece w ∧ C.ofValue w t = C.ofValue v t := by
  induction fits generalizing q piece v with
  | scalar k =>
    cases fits' with
    | scalar => exact ⟨v, h, rfl⟩
  | text =>
    cases fits' with
    | text => exact ⟨v, h, rfl⟩
  | bulk k storage =>
    cases fits' with
    | bulk => exact ⟨v, h, rfl⟩
    | elements inner =>
      cases inner with
      | scalar => exact reads_bulk storage h
  | @elements p storage t fits ih =>
    cases fits' with
    | bulk =>
      cases fits with
      | scalar => exact reads_elements_scalar storage h
    | @elements q _ _ fits' =>
      cases ordered with
      | elements ordered =>
        cases ordered' with
        | elements ordered' =>
          obtain ⟨items, items', rfl, read, same⟩ :=
            reads_elements_agree (fun piece v => ih fits' ordered ordered') h
          refine ⟨.list items', read, ?_⟩
          rw [ofValue, ofValue, ofValues_congr same]
  | @record name fields id args unique every only inner ih =>
    cases fits' with
    | @record name' fields' _ _ unique' every' only' inner' =>
      have order := same_order (.record unique every only inner)
        (.record unique' every' only' inner') ordered ordered'
      have each : List.Forall₂ (fun field field' => field.1 = field'.1 ∧ ∀ piece v,
          Reads limits field.2 piece v → ∃ w, Reads limits field'.2 piece w ∧
            ∀ t, (field.1, t) ∈ C.members id args → C.ofValue w t = C.ofValue v t)
          fields fields' := by
        refine (forall₂_of_map_eq order).imp ?_
        rintro ⟨n, p⟩ ⟨n', q⟩ ⟨same, hp, hq⟩
        obtain rfl : n = n' := same
        refine ⟨rfl, fun piece v read => ?_⟩
        obtain ⟨t, mem⟩ := only _ hp
        obtain ⟨w, read', agree⟩ := ih _ hp t mem (inner' _ hq t mem)
          (ordered.inner _ hp) (ordered'.inner _ hq) read
        refine ⟨w, read', fun t' mem' => ?_⟩
        have found := lookup_of_mem unique mem'
        rw [lookup_of_mem unique mem] at found
        obtain rfl := Option.some.inj found
        exact agree
      rw [Reads] at h
      obtain ⟨values, rfl, all⟩ := h
      obtain ⟨names, values', all', same⟩ :=
        readsFields_agree (S := fun n v w => ∀ t, (n, t) ∈ C.members id args →
          C.ofValue w t = C.ofValue v t) each all
      refine ⟨.record name' (Fields.ofList values'), ?_, ?_⟩
      · rw [Reads]
        exact ⟨values', rfl, all'⟩
      · have apart : (values.map Prod.fst).Nodup :=
          names ▸ (ascending_names ordered).imp fun less => String.ne_of_lt less
        have apart' : (values'.map Prod.fst).Nodup :=
          map_eq_map (same.imp fun _ _ h => h.1) ▸ apart
        rw [ofValue, ofValue, assign_congr]
        intro f hf kept
        have mem : (f.name, f.type.subst args) ∈ C.members id args :=
          List.mem_map.mpr ⟨f, List.mem_filter.mpr ⟨hf, by rw [kept]; rfl⟩, rfl⟩
        obtain ⟨field, hfield, named⟩ := every _ mem
        have listed : f.name ∈ values.map Prod.fst := by
          rw [names]
          exact List.mem_map.mpr ⟨field, hfield, named⟩
        obtain ⟨⟨_, v⟩, hv, rfl⟩ := List.mem_map.mp listed
        obtain ⟨⟨_, w⟩, hw, rfl, agree⟩ := partner_right same hv
        exact ⟨v, w, Fields.get?_ofList_of_mem apart hv, Fields.get?_ofList_of_mem apart' hw,
          agree _ mem⟩

end SchemaCodec.Catalog
