import Mathlib.Data.List.Forall2
import SchemaCodec.Proofs.TypeName.Parameters

/-! # Parameters in names

To replace the parameters in the name of a type by the names of arguments gives the name of the type
with the arguments in the places of the parameters. The highest parameter is replaced first, and a
lower one is never taken for it.
-/

namespace SchemaCodec.TypeName

variable {index lower : Nat} {arg : String} {cs ds cs' ds' tail : List Char}

def Ended (tail : List Char) : Prop := ∀ c ∈ tail.head?, c.isDigit = false

/-- Replacing the parameter makes the one text of the other, whatever follows that does not begin
with a digit. -/
def Replaces (index : Nat) (arg : String) (cs ds : List Char) : Prop :=
  ∀ tail, Ended tail →
    replaceParameter index arg (cs ++ tail) = ds ++ replaceParameter index arg tail

theorem replaceFrom_skip (pattern replacement : List Char) (cs tail : List Char) :
    replaceFrom pattern replacement cs.length (cs ++ tail) =
      replaceFrom pattern replacement 0 tail := by
  induction cs with
  | nil => rfl
  | cons c cs ih =>
    rw [List.length_cons, List.cons_append, replaceFrom]
    exact ih

theorem replaceParameter_plain (plain : '$' ∉ cs) (tail : List Char) :
    replaceParameter index arg (cs ++ tail) = cs ++ replaceParameter index arg tail := by
  induction cs with
  | nil => rfl
  | cons c cs ih =>
    have apart : (parameter index).toList.isPrefixOf (c :: (cs ++ tail)) = false := by
      rw [toList_parameter]
      have sign : '$' ≠ c := fun same => plain (same ▸ List.mem_cons_self)
      simp [List.isPrefixOf, sign]
    unfold replaceParameter at ih ⊢
    rw [List.cons_append, replaceFrom, if_neg (by simp [apart]),
      ih fun mem => plain (List.mem_cons_of_mem c mem)]
    rfl

theorem replaces_plain (plain : '$' ∉ cs) : Replaces index arg cs cs := fun tail _ =>
  replaceParameter_plain plain tail

theorem replaceParameter_self (index : Nat) (arg : String) (tail : List Char) :
    replaceParameter index arg ((parameter index).toList ++ tail) =
      arg.toList ++ replaceParameter index arg tail := by
  have found : (parameter index).toList.isPrefixOf ((parameter index).toList ++ tail) = true :=
    List.isPrefixOf_iff_prefix.mpr (List.prefix_append _ _)
  rw [toList_parameter, List.cons_append] at found
  unfold replaceParameter
  rw [toList_parameter, List.cons_append, replaceFrom, if_pos found, List.length_cons,
    Nat.add_sub_cancel, replaceFrom_skip]

theorem replaces_parameter (index : Nat) (arg : String) :
    Replaces index arg (parameter index).toList arg.toList := fun tail _ =>
  replaceParameter_self index arg tail

theorem replaceParameter_other
    (apart : ¬ (parameter index).toList <+: (parameter lower).toList ++ tail) :
    replaceParameter index arg ((parameter lower).toList ++ tail) =
      (parameter lower).toList ++ replaceParameter index arg tail := by
  have digits : '$' ∉ Nat.toDigits 10 lower := fun mem =>
    absurd (Nat.isDigit_of_mem_toDigits (by decide) (by decide) mem) (by decide)
  have rest := @replaceParameter_plain index arg _ digits tail
  rw [← List.isPrefixOf_iff_prefix, toList_parameter lower, List.cons_append] at apart
  rw [toList_parameter lower, List.cons_append]
  unfold replaceParameter at rest ⊢
  rw [replaceFrom, if_neg apart, rest]
  rfl

theorem not_begins_of_lt (less : lower < index) (ended : Ended tail) :
    ¬ (parameter index).toList <+: (parameter lower).toList ++ tail := by
  intro begins
  rw [toList_parameter, toList_parameter, List.cons_append, List.prefix_cons_inj] at begins
  have shorter : (Nat.toDigits 10 lower).length ≤ (Nat.toDigits 10 index).length := by
    have bound := (Nat.length_toDigits_le_iff (b := 10) (by decide)
      Nat.length_toDigits_pos).mp (Nat.le_refl (Nat.toDigits 10 index).length)
    exact (Nat.length_toDigits_le_iff (by decide) Nat.length_toDigits_pos).mpr (by omega)
  obtain ⟨more, split⟩ := List.prefix_of_prefix_length_le (List.prefix_append _ tail) begins shorter
  rw [← split, List.prefix_append_right_inj] at begins
  cases more with
  | nil =>
    rw [List.append_nil] at split
    have same := congrArg (Nat.ofDigitChars 10 · 0) split
    simp only [Nat.ofDigitChars_ten_toDigits] at same
    omega
  | cons c more =>
    obtain ⟨rest, rfl⟩ := begins
    have digit : c.isDigit = true := by
      apply Nat.isDigit_of_mem_toDigits (b := 10) (n := index) (by decide) (by decide)
      rw [← split]
      simp
    cases digit.symm.trans (ended c rfl)

theorem replaces_lower (less : lower < index) :
    Replaces index arg (parameter lower).toList (parameter lower).toList := fun _ ended =>
  replaceParameter_other (not_begins_of_lt less ended)

theorem Replaces.append (h : Replaces index arg cs ds) (h' : Replaces index arg cs' ds')
    (ended : Ended cs') (nonempty : cs' ≠ []) : Replaces index arg (cs ++ cs') (ds ++ ds') := by
  intro tail free
  rw [List.append_assoc, List.append_assoc, ← h' tail free]
  refine h _ fun c hc => ended c ?_
  rwa [List.head?_append_of_ne_nil _ nonempty] at hc

/-! ## Lists of names -/

theorem ended_of_head {c : Char} (digit : c.isDigit = false) (cs : List Char) : Ended (c :: cs) := by
  rintro _ ⟨⟩
  exact digit

theorem replaces_intercalate {pieces pieces' : List (List Char)}
    (each : List.Forall₂ (Replaces index arg) pieces pieces') :
    Replaces index arg (List.intercalate [',', ' '] pieces)
      (List.intercalate [',', ' '] pieces') := by
  induction each with
  | nil => exact replaces_plain List.not_mem_nil
  | cons head tail ih =>
    cases tail with
    | nil =>
      rw [List.intercalate_singleton, List.intercalate_singleton]
      exact head
    | cons =>
      rw [List.intercalate_cons_cons, List.intercalate_cons_cons, List.append_assoc,
        List.append_assoc]
      refine head.append ?_ (ended_of_head rfl _) (List.cons_ne_nil _ _)
      intro tail free
      rw [List.append_assoc, replaceParameter_plain (by decide), ih tail free, List.append_assoc]

theorem toList_generic (base : String) (args : List String) :
    (generic base args).toList = base.toList ++
      ('<' :: List.intercalate [',', ' '] (args.map String.toList) ++ ['>']) := by
  rw [generic, String.toList_append, String.toList_append, String.toList_append,
    String.toList_intercalate, List.append_assoc, List.append_assoc]
  rfl

theorem replaces_generic {base : String} {names names' : List String}
    (plain : '$' ∉ base.toList)
    (each : List.Forall₂ (fun name name' => Replaces index arg name.toList name'.toList) names
      names') :
    Replaces index arg (generic base names).toList (generic base names').toList := by
  have inner := replaces_intercalate
    (List.forall₂_map_left_iff.mpr (List.forall₂_map_right_iff.mpr each))
  rw [toList_generic, toList_generic]
  intro tail _
  rw [List.append_assoc, replaceParameter_plain plain, List.append_assoc, List.cons_append,
    ← List.singleton_append, List.append_assoc, replaceParameter_plain (by decide),
    inner (['>'] ++ tail) (ended_of_head rfl tail), replaceParameter_plain (by decide)]
  simp

end SchemaCodec.TypeName
