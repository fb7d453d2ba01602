/-! # Caches

Finite maps that remember the order of insertion. An entry is added once and never replaced,
except where a map is written with `put`.
-/

namespace SchemaCodec

variable {κ α : Type} [DecidableEq κ]

/-- Entries under keys, the oldest first. -/
structure Cache (κ α : Type) where
  entries : List (κ × α)

namespace Cache

def empty : Cache κ α := ⟨[]⟩

def get? (cache : Cache κ α) (key : κ) : Option α :=
  (cache.entries.find? (·.1 = key)).map Prod.snd

def contains (cache : Cache κ α) (key : κ) : Bool := (cache.get? key).isSome

def size (cache : Cache κ α) : Nat := cache.entries.length

/-- Adds an entry unless there is one under the key. -/
def add (cache : Cache κ α) (key : κ) (x : α) : Cache κ α :=
  if cache.contains key then cache else ⟨cache.entries ++ [(key, x)]⟩

def getOr (cache : Cache κ α) (key : κ) (x : α) : α := (cache.get? key).getD x

def put (cache : Cache κ α) (key : κ) (x : α) : Cache κ α :=
  ⟨cache.entries.filter (·.1 ≠ key) ++ [(key, x)]⟩

theorem get?_add_of_some {cache : Cache κ α} {key : κ} {x : α} (h : cache.get? key = some x)
    (other : κ) (y : α) : (cache.add other y).get? key = some x := by
  unfold add
  split
  · exact h
  · simp only [get?, Option.map_eq_some_iff] at h ⊢
    obtain ⟨entry, found, rfl⟩ := h
    exact ⟨entry, by simp [List.find?_append, found], rfl⟩

theorem get?_add_self (cache : Cache κ α) (key : κ) (x : α) :
    (cache.add key x).get? key = some (cache.getOr key x) := by
  unfold add getOr contains
  cases h : cache.get? key with
  | some y => simp [h]
  | none =>
    simp only [get?, Option.map_eq_none_iff] at h
    simp [get?, List.find?_append, h]

end Cache

end SchemaCodec
