/-! # Fields

A finite map from names to values, kept as a list in ascending order of the names (by code point,
which is also the order of their UTF-8 bytes).
-/

namespace SchemaCodec.Fields

variable {α : Type}

def get? (name : String) : List (String × α) → Option α
  | [] => none
  | (n, x) :: rest => if n = name then some x else get? name rest

def insert (name : String) (x : α) : List (String × α) → List (String × α)
  | [] => [(name, x)]
  | (n, y) :: rest =>
    if name < n then (name, x) :: (n, y) :: rest
    else if n = name then (name, x) :: rest
    else (n, y) :: insert name x rest

def erase (name : String) : List (String × α) → List (String × α)
  | [] => []
  | (n, y) :: rest => if n = name then rest else (n, y) :: erase name rest

/-- The map with the given entries, of which the last one under a name counts. -/
def ofList (entries : List (String × α)) : List (String × α) :=
  entries.foldl (fun fields (name, x) => insert name x fields) []

/-- Ascending names, hence no name twice. -/
def Sorted (fields : List (String × α)) : Prop := fields.Pairwise (·.1 < ·.1)

theorem get?_insert_self (name : String) (x : α) (fields : List (String × α)) :
    get? name (insert name x fields) = some x := by
  induction fields with
  | nil => simp [insert, get?]
  | cons entry rest ih =>
    obtain ⟨n, y⟩ := entry
    rw [insert]
    split
    · simp [get?]
    · split
      · simp [get?]
      · next h => simp [get?, h, ih]

theorem get?_insert_of_ne {name other : String} (h : name ≠ other) (x : α)
    (fields : List (String × α)) :
    get? other (insert name x fields) = get? other fields := by
  induction fields with
  | nil => simp [insert, get?, h]
  | cons entry rest ih =>
    obtain ⟨n, y⟩ := entry
    rw [insert]
    split
    · simp [get?, h]
    · split
      · next hn => subst hn; simp [get?, h]
      · by_cases hn : n = other <;> simp [get?, hn, ih]

end SchemaCodec.Fields
