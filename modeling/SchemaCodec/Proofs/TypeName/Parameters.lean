import SchemaCodec.Proofs.TypeName.Arrays

/-! # Names of parameters

A parameter is named by a sign and digits, so its name is atomic, and no primitive is spelled so.
-/

namespace SchemaCodec.TypeName

theorem trim_eq_self {cs : List Char} (h : ∀ c ∈ cs, isBlank c = false) : trim cs = cs := by
  have keep : ∀ ds : List Char, (∀ c ∈ ds, isBlank c = false) → ds.dropWhile isBlank = ds := by
    intro ds plain
    cases ds with
    | nil => rfl
    | cons d ds =>
      rw [List.dropWhile_cons, plain d List.mem_cons_self]
      rfl
  rw [trim, keep cs h, keep cs.reverse fun c hc => h c (List.mem_reverse.mp hc), List.reverse_reverse]

theorem toList_parameter (index : Nat) :
    (parameter index).toList = '$' :: Nat.toDigits 10 index := by
  rw [parameter, String.toList_append, Nat.toString_eq_repr, Nat.toList_repr]
  rfl

theorem mem_parameter {index : Nat} {c : Char} (h : c ∈ (parameter index).toList) :
    c = '$' ∨ c.isDigit = true := by
  rw [toList_parameter] at h
  rcases List.mem_cons.mp h with sign | digit
  · exact .inl sign
  · exact .inr (Nat.isDigit_of_mem_toDigits (by decide) (by decide) digit)

theorem plain_of_isDigit {c : Char} (h : c.isDigit = true) :
    isBlank c = false ∧ c ≠ '<' ∧ c ≠ '>' ∧ c ≠ '[' := by
  have range : 48 ≤ c.toNat ∧ c.toNat ≤ 57 := by
    simpa [Char.isDigit, UInt32.le_iff_toNat_le] using h
  refine ⟨?_, ?_, ?_, ?_⟩
  · simp [isBlank]
    omega
  · rintro rfl
    exact absurd range.2 (by decide)
  · rintro rfl
    exact absurd range.2 (by decide)
  · rintro rfl
    exact absurd range.2 (by decide)

theorem atomic_parameter (index : Nat) : Atomic (parameter index) := by
  have plain : ∀ c ∈ (parameter index).toList,
      isBlank c = false ∧ c ≠ '<' ∧ c ≠ '>' ∧ c ≠ '[' := by
    intro c hc
    rcases mem_parameter hc with rfl | digit
    · decide
    · exact plain_of_isDigit digit
  apply atomic_of_unbracketed
  rw [unbracketed, trim_eq_self fun c hc => (plain c hc).1]
  simp only [decide_true, Bool.and_true, List.all_eq_true, Bool.and_eq_true, decide_eq_true_eq]
  exact fun c hc => ⟨⟨(plain c hc).2.1, (plain c hc).2.2.1⟩, (plain c hc).2.2.2⟩

theorem ofSpelling?_parameter (index : Nat) : Primitive.ofSpelling? (parameter index) = none := by
  cases found : Primitive.ofSpelling? (parameter index) with
  | none => rfl
  | some p =>
    have letters : ∀ name ∈ spelled,
        name.toList.head? ≠ some '$' ∧ ("System." ++ name).toList.head? ≠ some '$' := by
      decide +kernel
    obtain ⟨short, long⟩ := letters _ (mem_spelled found)
    have sign : (parameter index).toList.head? = some '$' := by
      rw [toList_parameter]
      rfl
    rcases dropNamespace_cases (parameter index) with same | same
    · rw [← same] at short
      exact absurd sign short
    · rw [← same] at long
      exact absurd sign long

end SchemaCodec.TypeName
