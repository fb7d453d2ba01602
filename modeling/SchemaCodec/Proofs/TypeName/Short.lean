import SchemaCodec.Proofs.TypeName.Arrays

/-! # Unqualified names

The unqualified name of a sequence is that of its elements under the same marks. A name that
consists of a path and an identifier, with or without arguments, has the identifier for its
unqualified name.
-/

namespace SchemaCodec.TypeName

variable {base : String} {mark path cs found ident : List Char}

theorem short_of_splitArrays {name : String} {levels : Nat}
    (split : splitArrays name = (base, levels)) (whole : splitArrays base = (base, 0)) :
    short name = arrays (short base) levels := by
  simp only [short, split, whole, arrays]

theorem short_arrays (h : Atomic base) (levels : Nat) :
    short (arrays base levels) = arrays (short base) levels :=
  short_of_splitArrays (splitArrays_arrays h levels) (splitArrays_arrays h 0)

theorem short_name (p : Primitive) : short p.name = p.name := by
  rcases p with k | _ | _
  · cases k <;> decide
  · decide
  · decide

/-! ## Paths -/

/-- What stands before an identifier: nothing, or a path up to a separator. -/
inductive Leads : List Char → Prop

  | start : Leads []

  | dot (path : List Char) : Leads (path ++ ['.'])

  | colons (path : List Char) : Leads (path ++ [':', ':'])

theorem afterLast?_append (h : afterLast? mark cs = some found) (path : List Char) :
    afterLast? mark (path ++ cs) = some found := by
  induction path with
  | nil => exact h
  | cons c path ih => rw [List.cons_append, afterLast?, ih]

theorem afterLast?_eq_none {c : Char} (h : c ∉ cs) : afterLast? (c :: mark) cs = none := by
  induction cs with
  | nil => rfl
  | cons d cs ih =>
    obtain ⟨apart, rest⟩ := not_or.mp (List.mem_cons.not.mp h)
    rw [afterLast?, ih rest]
    simp [apart]

theorem afterLast_dot (plain : '.' ∉ ident) (path : List Char) :
    afterLast ['.'] (path ++ '.' :: ident) = ident := by
  have last : afterLast? ['.'] ('.' :: ident) = some ident := by
    simp [afterLast?, afterLast?_eq_none plain]
  rw [afterLast, afterLast?_append last, Option.getD_some]

theorem afterLast_colons (plain : ':' ∉ ident) (path : List Char) :
    afterLast [':', ':'] (path ++ ':' :: ':' :: ident) = ident := by
  have last : afterLast? [':', ':'] (':' :: ':' :: ident) = some ident := by
    have single : ¬ [':', ':'].isPrefixOf (':' :: ident) = true := by
      cases ident with
      | nil => decide
      | cons c ident =>
        have apart : ':' ≠ c := fun same => plain (same ▸ List.mem_cons_self)
        simp [apart]
    rw [afterLast?, afterLast?, afterLast?_eq_none plain]
    simp [single]
  rw [afterLast, afterLast?_append last, Option.getD_some]

theorem exists_afterLast_colons (plain : ':' ∉ ident) (path : List Char) :
    ∃ rest, afterLast [':', ':'] (path ++ '.' :: ident) = rest ++ '.' :: ident := by
  unfold afterLast
  induction path with
  | nil =>
    have none_there : afterLast? [':', ':'] ('.' :: ident) = none :=
      afterLast?_eq_none (by simpa using plain)
    exact ⟨[], by rw [List.nil_append, none_there]; rfl⟩
  | cons c path ih =>
    rw [List.cons_append, afterLast?]
    cases later : afterLast? [':', ':'] (path ++ '.' :: ident) with
    | some found =>
      rw [later] at ih
      exact ih
    | none =>
      dsimp only
      split
      · next begins =>
        cases path with
        | nil => simp at begins
        | cons d path => exact ⟨path, rfl⟩
      · exact ⟨c :: path, rfl⟩

/-- The identifier after a path is the unqualified name, whatever arguments follow. -/
theorem short_qualified {name : String} (whole : splitArrays name = (name, 0)) {tail : List Char}
    (leads : Leads path) (dotless : '.' ∉ ident) (colonless : ':' ∉ ident)
    (bare : '<' ∉ path ++ ident) (ends : ∀ c ∈ tail.head?, c = '<')
    (same : name.toList = path ++ ident ++ tail) : short name = String.ofList ident := by
  have kept : name.toList.takeWhile (· ≠ '<') = path ++ ident := by
    have all : ∀ c ∈ path ++ ident, decide (c ≠ '<') = true := by
      intro c hc
      exact decide_eq_true fun opening => bare (opening ▸ hc)
    rw [same, List.takeWhile_append_of_pos all]
    cases tail with
    | nil => simp
    | cons c tail =>
      obtain rfl := ends c rfl
      simp
  simp only [short, whole, arrays, kept]
  cases leads with
  | start =>
    rw [List.nil_append, afterLast, afterLast, afterLast?_eq_none colonless, Option.getD_none,
      afterLast?_eq_none dotless, Option.getD_none]
  | dot path =>
    rw [List.append_assoc, List.singleton_append]
    obtain ⟨rest, found⟩ := exists_afterLast_colons colonless path
    rw [found, afterLast_dot dotless]
  | colons path =>
    rw [List.append_assoc]
    show String.ofList (afterLast _ (afterLast _ (path ++ ':' :: ':' :: ident))) = _
    rw [afterLast_colons colonless, afterLast, afterLast?_eq_none dotless, Option.getD_none]

end SchemaCodec.TypeName
