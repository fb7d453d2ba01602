import SchemaCodec.Proofs.Lists
import SchemaCodec.Value.Basic

/-! # Fields made from lists

What is found in a map that was made from a list of entries.
-/

namespace SchemaCodec.Fields

variable {α : Type} {name : String} {x : α} {entries fields : List (String × α)}

theorem ofList_induction {I : List (String × α) → Prop} (start : I fields)
    (step : ∀ p ∈ entries, ∀ fields, I fields → I (insert p.1 p.2 fields)) :
    I (entries.foldl (fun fields (name, x) => insert name x fields) fields) := by
  induction entries generalizing fields with
  | nil => exact start
  | cons p rest ih =>
    exact ih (step p List.mem_cons_self fields start) fun q hq => step q (List.mem_cons_of_mem p hq)

theorem get?_ofList (mem : (name, x) ∈ entries) (only : ∀ y, (name, y) ∈ entries → y = x) :
    get? name (ofList entries) = some x := by
  obtain ⟨before, after, rfl⟩ := List.append_of_mem mem
  rw [ofList, List.foldl_append, List.foldl_cons]
  refine ofList_induction (I := fun fields => get? name fields = some x) ?_ ?_
  · exact get?_insert_self name x _
  · rintro ⟨other, y⟩ hp fields found
    by_cases same : other = name
    · subst same
      obtain rfl := only y (List.mem_append_right _ (List.mem_cons_of_mem _ hp))
      exact get?_insert_self other y fields
    · exact (get?_insert_of_ne same y fields).trans found

theorem get?_ofList_of_mem (unique : (entries.map Prod.fst).Nodup) (mem : (name, x) ∈ entries) :
    get? name (ofList entries) = some x := by
  refine get?_ofList mem fun y hy => ?_
  have found := (lookup_of_mem unique hy).symm.trans (lookup_of_mem unique mem)
  exact Option.some.inj found

theorem mem_insert {p : String × α} (h : p ∈ insert name x fields) : p = (name, x) ∨ p ∈ fields := by
  induction fields with
  | nil => exact .inl (List.mem_singleton.mp h)
  | cons q rest ih =>
    obtain ⟨n, y⟩ := q
    rw [insert] at h
    split at h
    · exact List.mem_cons.mp h
    · split at h
      · rcases List.mem_cons.mp h with rfl | h
        · exact .inl rfl
        · exact .inr (List.mem_cons_of_mem _ h)
      · rcases List.mem_cons.mp h with rfl | h
        · exact .inr List.mem_cons_self
        · rcases ih h with rfl | h
          · exact .inl rfl
          · exact .inr (List.mem_cons_of_mem _ h)

theorem mem_of_mem_ofList {p : String × α} (h : p ∈ ofList entries) : p ∈ entries := by
  have all : ∀ p ∈ ofList entries, p ∈ entries := by
    refine ofList_induction (I := fun fields => ∀ p ∈ fields, p ∈ entries)
      (fun _ no => nomatch no) ?_
    rintro q hq fields old p hp
    rcases mem_insert hp with rfl | hp
    · exact hq
    · exact old p hp
  exact all p h

theorem sorted_insert (h : Sorted fields) : Sorted (insert name x fields) := by
  induction fields with
  | nil => exact List.pairwise_singleton _ _
  | cons p rest ih =>
    obtain ⟨n, y⟩ := p
    obtain ⟨below, sorted⟩ := List.pairwise_cons.mp h
    rw [insert]
    split
    · next less =>
      refine List.pairwise_cons.mpr ⟨fun q hq => ?_, h⟩
      rcases List.mem_cons.mp hq with rfl | hq
      · exact less
      · exact String.lt_trans less (below q hq)
    · next notLess =>
      split
      · next same => exact List.pairwise_cons.mpr ⟨fun q hq => same ▸ below q hq, sorted⟩
      · next apart =>
        refine List.pairwise_cons.mpr ⟨fun q hq => ?_, ih sorted⟩
        rcases mem_insert hq with rfl | hq
        · exact Std.lt_of_le_of_ne (Std.not_lt.mp notLess) apart
        · exact below q hq

theorem sorted_ofList (entries : List (String × α)) : Sorted (ofList entries) :=
  ofList_induction .nil fun _ _ _ sorted => sorted_insert sorted

theorem Sorted.nodup (h : Sorted fields) : (fields.map Prod.fst).Nodup :=
  List.pairwise_map.mpr (h.imp fun less => String.ne_of_lt less)

theorem mem_of_get? (h : get? name fields = some x) : (name, x) ∈ fields := by
  induction fields with
  | nil => cases h
  | cons p rest ih =>
    obtain ⟨n, y⟩ := p
    rw [get?] at h
    split at h
    · next same =>
      obtain rfl := Option.some.inj h
      exact same ▸ List.mem_cons_self
    · exact List.mem_cons_of_mem _ (ih h)

theorem perm_ofList (unique : (entries.map Prod.fst).Nodup) : (ofList entries).Perm entries := by
  have apart : ∀ {fields : List (String × α)}, (fields.map Prod.fst).Nodup → fields.Nodup :=
    fun keys => (List.pairwise_map.mp keys).imp fun differ same => differ (congrArg Prod.fst same)
  apply (List.perm_ext_iff_of_nodup (apart (sorted_ofList entries).nodup) (apart unique)).mpr
  rintro ⟨name, x⟩
  exact ⟨mem_of_mem_ofList, fun mem => mem_of_get? (get?_ofList_of_mem unique mem)⟩

theorem map_insert {β : Type} (f : α → β) (name : String) (x : α) (fields : List (String × α)) :
    (insert name x fields).map (fun p => (p.1, f p.2)) =
      insert name (f x) (fields.map fun p => (p.1, f p.2)) := by
  induction fields with
  | nil => rfl
  | cons p rest ih =>
    obtain ⟨n, y⟩ := p
    rw [List.map_cons, insert, insert]
    split
    · rfl
    · split
      · rfl
      · rw [List.map_cons, ih]

theorem map_ofList {β : Type} (f : α → β) (entries : List (String × α)) :
    (ofList entries).map (fun p => (p.1, f p.2)) =
      ofList (entries.map fun p => (p.1, f p.2)) := by
  have grown : ∀ fields : List (String × α),
      (entries.foldl (fun fields (name, x) => insert name x fields) fields).map
          (fun p => (p.1, f p.2)) =
        (entries.map fun p => (p.1, f p.2)).foldl (fun fields (name, x) => insert name x fields)
          (fields.map fun p => (p.1, f p.2)) := by
    induction entries with
    | nil => exact fun _ => rfl
    | cons p rest ih =>
      intro fields
      rw [List.foldl_cons, List.map_cons, List.foldl_cons, ih, map_insert]
  exact grown []

theorem Sorted.eq_of_perm {others : List (String × α)} (h : Sorted entries) (h' : Sorted others)
    (perm : entries.Perm others) : entries = others :=
  perm.eq_of_pairwise
    (fun _ _ _ _ less greater => absurd (String.lt_trans less greater) (String.lt_irrefl _)) h h'

theorem ofList_of_sorted (h : Sorted entries) : ofList entries = entries :=
  (sorted_ofList entries).eq_of_perm h (perm_ofList h.nodup)

/-- In whatever order entries with distinct names come, they make one map. -/
theorem ofList_eq_of_perm {others : List (String × α)} (unique : (entries.map Prod.fst).Nodup)
    (perm : entries.Perm others) : ofList entries = ofList others := by
  have unique' : (others.map Prod.fst).Nodup := (perm.map _).nodup_iff.mp unique
  exact (sorted_ofList entries).eq_of_perm (sorted_ofList others)
    (((perm_ofList unique).trans perm).trans (perm_ofList unique').symm)

end SchemaCodec.Fields
