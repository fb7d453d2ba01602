import SchemaCodec.Proofs.TypeName.Substitution

/-! # Replacing all parameters of a name

A name is text and parameters in any order. Its parameters are replaced one after the other, the
highest first, and the result is the name with every argument in the places of its parameter, unless
an argument that has been put behind a lower parameter makes it read as one in between.
-/

namespace SchemaCodec.TypeName

/-- A part of a name: text as it stands, or a parameter. -/
inductive Part
  | text (chars : List Char)
  | parameter (index : Nat)
  deriving DecidableEq

def Part.spell (value : Nat → List Char) : Part → List Char
  | text chars => chars
  | parameter index => value index

def spell (value : Nat → List Char) (parts : List Part) : List Char :=
  parts.flatMap (Part.spell value)

def placeholder (index : Nat) : List Char := (parameter index).toList

/-- Arguments in the places of the parameters from `first` on. -/
def argumentFrom (args : List String) (first index : Nat) : List Char :=
  if first ≤ index then (args.getD index "").toList else placeholder index

/-- No digit comes right behind a parameter. -/
def Apart (value : Nat → List Char) : List Part → Prop
  | [] => True
  | .text _ :: parts => Apart value parts
  | .parameter _ :: parts => Ended (spell value parts) ∧ Apart value parts

/-- No parameter begins like a higher one when that is replaced, with what then stands behind it:
the parameters above that one have given way to their arguments. -/
def Clear (args : List String) : List Part → Prop
  | [] => True
  | .text _ :: parts => Clear args parts
  | .parameter lower :: parts =>
    (∀ index < args.length, lower < index →
      ¬ placeholder index <+: placeholder lower ++ spell (argumentFrom args (index + 1)) parts) ∧
    Clear args parts

variable {args : List String} {parts : List Part} {value : Nat → List Char}

@[simp] theorem spell_nil : spell value [] = [] := rfl

@[simp] theorem spell_text (chars : List Char) :
    spell value (.text chars :: parts) = chars ++ spell value parts := rfl

@[simp] theorem spell_parameter (index : Nat) :
    spell value (.parameter index :: parts) = value index ++ spell value parts := rfl

theorem argumentFrom_of_le {first index : Nat} (h : first ≤ index) (known : index < args.length) :
    argumentFrom args first index = args[index].toList := by
  simp [argumentFrom, h, known]

theorem argumentFrom_of_lt {first index : Nat} (h : index < first) :
    argumentFrom args first index = placeholder index := by
  simp [argumentFrom, Nat.not_le.mpr h]

theorem spell_congr {other : Nat → List Char}
    (same : ∀ i, .parameter i ∈ parts → value i = other i) : spell value parts = spell other parts := by
  induction parts with
  | nil => rfl
  | cons part parts ih =>
    have rest := ih fun i hi => same i (List.mem_cons_of_mem part hi)
    cases part with
    | text chars => simp [rest]
    | parameter index => simp [rest, same index List.mem_cons_self]

/-! ## One parameter after the other -/

section Replacement

variable (known : ∀ i, .parameter i ∈ parts → i < args.length)
  (plain : ∀ chars, .text chars ∈ parts → '$' ∉ chars) (unmarked : ∀ arg ∈ args, '$' ∉ arg.toList)

include known plain unmarked

/-- Where the parameters above `index` have given way, `index` gives way to its argument, and nothing
else changes: not the texts, nor the arguments, nor the lower parameters. -/
theorem replaceParameter_spell {index : Nat} (inside : index < args.length)
    (clear : Clear args parts) :
    replaceParameter index args[index] (spell (argumentFrom args (index + 1)) parts) =
      spell (argumentFrom args index) parts := by
  induction parts with
  | nil => rfl
  | cons part parts ih =>
    have known' : ∀ i, .parameter i ∈ parts → i < args.length :=
      fun i hi => known i (List.mem_cons_of_mem part hi)
    have plain' : ∀ chars, .text chars ∈ parts → '$' ∉ chars :=
      fun chars h => plain chars (List.mem_cons_of_mem part h)
    cases part with
    | text chars =>
      simp only [spell_text]
      rw [replaceParameter_plain (plain chars List.mem_cons_self), ih known' plain' clear]
    | parameter i =>
      obtain ⟨apart, clear⟩ := clear
      have rest := ih known' plain' clear
      have hi : i < args.length := known i List.mem_cons_self
      simp only [spell_parameter]
      rcases Nat.lt_trichotomy i index with lower | rfl | higher
      · rw [argumentFrom_of_lt (by omega), argumentFrom_of_lt lower]
        exact (replaceParameter_other (apart index inside lower)).trans (by rw [rest]; rfl)
      · rw [argumentFrom_of_lt (Nat.lt_succ_self i), argumentFrom_of_le (Nat.le_refl i) hi, ← rest]
        exact replaceParameter_self i _ _
      · rw [argumentFrom_of_le higher hi, argumentFrom_of_le (Nat.le_of_lt higher) hi,
          replaceParameter_plain (unmarked _ (List.getElem_mem hi)), rest]

theorem substituteFrom_spell (clear : Clear args parts) {first : Nat} (h : first ≤ args.length) :
    substituteFrom first (args.drop first) (spell placeholder parts) =
      spell (argumentFrom args first) parts := by
  obtain ⟨left, count⟩ := Nat.exists_eq_add_of_le h
  induction left generalizing first with
  | zero =>
    rw [List.drop_of_length_le (by omega), substituteFrom]
    exact spell_congr fun i hi => (argumentFrom_of_lt (by have := known i hi; omega)).symm
  | succ left ih =>
    have inside : first < args.length := by omega
    rw [List.drop_eq_getElem_cons inside, substituteFrom, ih inside (by omega)]
    exact replaceParameter_spell known plain unmarked inside clear

theorem substitute_spell (clear : Clear args parts) :
    substitute (String.ofList (spell placeholder parts)) args =
      String.ofList (spell (argumentFrom args 0) parts) := by
  have all := substituteFrom_spell known plain unmarked clear (Nat.zero_le args.length)
  rw [List.drop_zero] at all
  rw [substitute, String.toList_ofList, all]

end Replacement

/-! ## Where no parameter is mistaken -/

theorem ended_placeholder (index : Nat) (tail : List Char) : Ended (placeholder index ++ tail) := by
  rw [placeholder, toList_parameter]
  exact ended_of_head rfl _

theorem ended_of_filled {first : Nat} (h : Ended (spell (argumentFrom args 0) parts)) :
    Ended (spell (argumentFrom args first) parts) := by
  induction parts with
  | nil => exact h
  | cons part parts ih =>
    cases part with
    | text chars =>
      cases chars with
      | nil => exact ih h
      | cons c chars => exact h
    | parameter i =>
      rw [spell_parameter] at h ⊢
      by_cases given : first ≤ i
      · have same : argumentFrom args first i = argumentFrom args 0 i := by
          simp [argumentFrom, given]
        rw [same]
        cases empty : argumentFrom args 0 i with
        | nil =>
          rw [empty] at h
          exact ih h
        | cons c chars =>
          rw [empty] at h
          exact h
      · rw [argumentFrom_of_lt (by omega)]
        exact ended_placeholder i _

/-- Parameters are not mistaken where no digit comes behind one even after all have given way. -/
theorem clear_of_filled (h : Apart (argumentFrom args 0) parts) : Clear args parts := by
  induction parts with
  | nil => trivial
  | cons part parts ih =>
    cases part with
    | text chars => exact ih h
    | parameter lower =>
      obtain ⟨ended, apart⟩ := h
      exact ⟨fun index _ less => not_begins_of_lt less (ended_of_filled ended), ih apart⟩

theorem not_begins_of_small {lower index : Nat} (less : lower < index) (small : index < 10)
    (tail : List Char) : ¬ placeholder index <+: placeholder lower ++ tail := by
  intro begins
  have one : ∀ {n}, n < 10 → (placeholder n).length = 2 := by
    intro n hn
    simp [placeholder, toList_parameter, Nat.toDigits_of_lt_base hn]
  have same : placeholder index = placeholder lower := by
    apply List.IsPrefix.eq_of_length
    · exact List.prefix_of_prefix_length_le begins (List.prefix_append _ tail)
        (Nat.le_of_eq ((one small).trans (one (Nat.lt_trans less small)).symm))
    · rw [one small, one (Nat.lt_trans less small)]
  rw [placeholder, placeholder, toList_parameter, toList_parameter] at same
  have digits := congrArg (Nat.ofDigitChars 10 · 0) (List.cons.inj same).2
  simp only [Nat.ofDigitChars_ten_toDigits] at digits
  omega

/-- With at most eleven arguments, only the last of them has a parameter of two digits, and that is
replaced first. -/
theorem clear_of_few (few : args.length ≤ 11)
    (known : ∀ i, .parameter i ∈ parts → i < args.length) (h : Apart placeholder parts) :
    Clear args parts := by
  induction parts with
  | nil => trivial
  | cons part parts ih =>
    have known' : ∀ i, .parameter i ∈ parts → i < args.length :=
      fun i hi => known i (List.mem_cons_of_mem part hi)
    cases part with
    | text chars => exact ih known' h
    | parameter lower =>
      obtain ⟨ended, apart⟩ := h
      refine ⟨fun index inside less => ?_, ih known' apart⟩
      by_cases small : index < 10
      · exact not_begins_of_small less small _
      · -- Nothing has been replaced yet when the last of eleven parameters is.
        have untouched : spell (argumentFrom args (index + 1)) parts = spell placeholder parts :=
          spell_congr fun i hi => argumentFrom_of_lt (by have := known' i hi; omega)
        rw [untouched]
        exact not_begins_of_lt less ended

/-- Each parameter gives way to its argument and nothing else changes, whatever the arguments begin
and end with, as long as no parameter is mistaken for a higher one. None is where no digit comes right
behind a parameter, neither before nor, with more than eleven arguments, after all have given way. -/
theorem substitutes_simultaneously (known : ∀ i, .parameter i ∈ parts → i < args.length)
    (plain : ∀ chars, .text chars ∈ parts → '$' ∉ chars)
    (unmarked : ∀ arg ∈ args, '$' ∉ arg.toList) :
    (Clear args parts →
      substitute (String.ofList (spell placeholder parts)) args =
        String.ofList (spell (fun i => (args.getD i "").toList) parts)) ∧
    (Apart placeholder parts → args.length ≤ 11 → Clear args parts) ∧
    (Apart (fun i => (args.getD i "").toList) parts → Clear args parts) := by
  have all : argumentFrom args 0 = fun i => (args.getD i "").toList := by
    funext i
    simp [argumentFrom]
  rw [← all]
  exact ⟨substitute_spell known plain unmarked, fun apart few => clear_of_few few known apart,
    clear_of_filled⟩

/-- Twelve arguments, and a parameter right behind another: the digits of the two arguments meet. -/
theorem substitutes_simultaneously_twelve :
    let parts : List Part := [.text ['P', '<'], .parameter 11, .parameter 1, .text [',', ' '],
      .parameter 10, .text ['>']]
    let args := ["a", "0b", "c", "d", "e", "f", "g", "h", "i", "j", "k", "l1"]
    (∀ i, .parameter i ∈ parts → i < args.length) ∧ (∀ chars, .text chars ∈ parts → '$' ∉ chars) ∧
      (∀ arg ∈ args, '$' ∉ arg.toList) ∧ Clear args parts ∧
      String.ofList (spell placeholder parts) = "P<$11$1, $10>" ∧
      substitute (String.ofList (spell placeholder parts)) args = "P<l10b, k>" := by
  intro parts args
  have known : ∀ i, .parameter i ∈ parts → i < args.length := by simp [parts, args]
  have plain : ∀ chars, .text chars ∈ parts → '$' ∉ chars := by simp [parts]
  have unmarked : ∀ arg ∈ args, '$' ∉ arg.toList := by decide
  have clear : Clear args parts := ⟨by decide, by decide, by decide, trivial⟩
  refine ⟨known, plain, unmarked, clear, by decide, ?_⟩
  rw [(substitutes_simultaneously known plain unmarked).1 clear]
  decide

/-- Twelve arguments, the last of which puts a digit behind the parameter `$1`: then `$10` gives way
there, although the name has no such parameter. -/
theorem substitute_mistaken :
    let parts : List Part := [.parameter 1, .parameter 11]
    let args := ["a", "b", "c", "d", "e", "f", "g", "h", "i", "j", "k", "0"]
    (∀ i, .parameter i ∈ parts → i < args.length) ∧ (∀ chars, .text chars ∈ parts → '$' ∉ chars) ∧
      (∀ arg ∈ args, '$' ∉ arg.toList) ∧ Apart placeholder parts ∧
      String.ofList (spell placeholder parts) = "$1$11" ∧
      String.ofList (spell (fun i => (args.getD i "").toList) parts) = "b0" ∧
      substitute (String.ofList (spell placeholder parts)) args = "k" := by
  refine ⟨by simp, by simp, by decide, ⟨ended_placeholder 11 [], ?_, trivial⟩, by decide, by decide,
    by decide⟩
  simp [Ended]

end SchemaCodec.TypeName
