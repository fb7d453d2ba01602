import SchemaCodec.Proofs.TypeName.Arrays

/-! # Names with brackets

One pass over a name, with the depth of its brackets, tells whether the name is atomic.
-/

namespace SchemaCodec.TypeName

/-- The angle brackets match from a depth on, and no mark of a sequence stands outside them. -/
def balanced : Nat → List Char → Bool
  | depth, [] => depth = 0
  | depth, c :: cs =>
    if c = '<' then balanced (depth + 1) cs
    else if c = '>' then depth ≠ 0 && balanced (depth - 1) cs
    else !(depth = 0 && ['[', ']'].isPrefixOf (c :: cs)) && balanced depth cs

variable {depth : Nat} {cs : List Char}

theorem count_of_balanced (h : balanced depth cs = true) :
    cs.count '>' = depth + cs.count '<' := by
  induction cs generalizing depth with
  | nil => simpa [balanced, eq_comm] using h
  | cons c cs ih =>
    rw [balanced] at h
    split at h
    · next opening =>
      subst opening
      simp [ih h]
      omega
    · next other =>
      split at h
      · next closing =>
        subst closing
        rw [Bool.and_eq_true, decide_eq_true_eq] at h
        simp [ih h.2]
        omega
      · next plain =>
        rw [Bool.and_eq_true] at h
        simp [other, plain, ih h.2]

/-- No bracket is closed before it is opened, and no mark stands where all brackets are closed. -/
theorem count_before_of_balanced (h : balanced depth cs = true) {before after : List Char}
    (split : cs = before ++ after) : before.count '>' ≤ depth + before.count '<' ∧
      (['[', ']'].isPrefixOf after = true → before.count '>' < depth + before.count '<') := by
  induction before generalizing cs depth with
  | nil =>
    obtain rfl : cs = after := split
    refine ⟨by simp, fun marked => ?_⟩
    cases cs with
    | nil => cases marked
    | cons c cs =>
      obtain rfl : '[' = c := by
        simp only [List.isPrefixOf, Bool.and_eq_true, beq_iff_eq] at marked
        exact marked.1
      rw [balanced, if_neg (by decide), if_neg (by decide), marked] at h
      simp only [Bool.and_true, Bool.and_eq_true, Bool.not_eq_true', decide_eq_false_iff_not] at h
      simp
      omega
  | cons c before ih =>
    subst split
    rw [List.cons_append, balanced] at h
    split at h
    · next opening =>
      subst opening
      obtain ⟨closed, marked⟩ := ih h rfl
      refine ⟨by simp; omega, fun marks => ?_⟩
      have := marked marks
      simp
      omega
    · next other =>
      split at h
      · next closing =>
        subst closing
        rw [Bool.and_eq_true, decide_eq_true_eq] at h
        obtain ⟨closed, marked⟩ := ih h.2 rfl
        refine ⟨by simp; omega, fun marks => ?_⟩
        have := marked marks
        simp
        omega
      · next plain =>
        rw [Bool.and_eq_true] at h
        simpa [other, plain] using ih h.2 rfl

theorem atomic_of_balanced {name : String} (h : balanced 0 name.toList = true)
    (trimmed : trim name.toList = name.toList) : Atomic name := by
  refine ⟨trimmed, fun before after split => ?_, ?_, fun before after split => ?_⟩
  · simpa using (count_before_of_balanced h split).1
  · simpa using count_of_balanced h
  · simpa using (count_before_of_balanced h split).2

theorem wellFormed_of_balanced {names : List String} (checked : ∀ name ∈ names,
    balanced 0 name.toList = true ∧ trim name.toList = name.toList ∧
      Primitive.ofSpelling? name = none) : ∀ name ∈ names, WellFormed name := by
  intro name mem
  obtain ⟨balanced, trimmed, foreign⟩ := checked name mem
  exact ⟨atomic_of_balanced balanced trimmed, foreign⟩

example : Atomic "Pair<Int32[], Box<String>>" :=
  atomic_of_balanced (by decide) (by decide)

end SchemaCodec.TypeName
