import SchemaCodec.Cache

/-! # Looking entries up

What a cache holds after an entry was added or set.
-/

namespace SchemaCodec.Cache

variable {κ α : Type} [DecidableEq κ] {cache : Cache κ α} {key other : κ} {x y : α}

@[simp] theorem get?_empty (key : κ) : (empty : Cache κ α).get? key = none := rfl

theorem contains_iff : cache.contains key = true ↔ ∃ x, cache.get? key = some x :=
  Option.isSome_iff_exists

theorem mem_of_get? (h : cache.get? key = some x) : (key, x) ∈ cache.entries := by
  obtain ⟨entry, found, rfl⟩ := Option.map_eq_some_iff.mp h
  obtain rfl : entry.1 = key := by simpa using List.find?_some found
  exact List.mem_of_find?_eq_some found

theorem get?_add_of_ne (h : other ≠ key) : (cache.add key x).get? other = cache.get? other := by
  unfold add
  split
  · rfl
  · simp [get?, List.find?_append, Ne.symm h]

theorem get?_add_eq_some (h : (cache.add key x).get? other = some y) :
    cache.get? other = some y ∨ (cache.get? key = none ∧ other = key ∧ y = x) := by
  by_cases same : other = key
  · subst same
    rw [get?_add_self, getOr] at h
    cases known : cache.get? other with
    | some z => rw [known] at h; exact .inl h
    | none => rw [known] at h; exact .inr ⟨rfl, rfl, (Option.some.inj h).symm⟩
  · rw [get?_add_of_ne same] at h
    exact .inl h

theorem getOr_eq (P : α → Prop) (old : ∀ y, cache.get? key = some y → P y) (new : P x) :
    P (cache.getOr key x) := by
  unfold getOr
  cases known : cache.get? key with
  | some y => exact old y known
  | none => exact new

theorem get?_put_self (cache : Cache κ α) (key : κ) (x : α) :
    (cache.put key x).get? key = some x := by
  have gone : (cache.entries.filter (·.1 ≠ key)).find? (·.1 = key) = none := by
    rw [List.find?_eq_none]
    intro entry mem
    simpa using (List.mem_filter.mp mem).2
  rw [put, get?, List.find?_append, gone]
  simp

theorem get?_put_of_ne (h : other ≠ key) : (cache.put key x).get? other = cache.get? other := by
  have kept : (cache.entries.filter (·.1 ≠ key)).find? (·.1 = other) =
      cache.entries.find? (·.1 = other) := by
    rw [List.find?_filter]
    congr 1
    funext entry
    by_cases same : entry.1 = other <;> simp [same, h]
  have apart : [(key, x)].find? (·.1 = other) = none := by simp [Ne.symm h]
  rw [put, get?, List.find?_append, kept, apart, Option.or_none]
  rfl

end SchemaCodec.Cache
