import SchemaCodec.Program.MessageType
import SchemaCodec.Proofs.TypeName.Substitution

/-! # Names of types with arguments

The name of a generic type at given arguments is its name over parameters with the names of the
arguments in their places.
-/

namespace SchemaCodec.MessageType

open SchemaCodec.TypeName

variable {args ts : List MessageType} {t : MessageType} {id : RecordId} {c : Char} {index : Nat}

theorem name_record (id : RecordId) (ts : List MessageType) :
    (record id ts).name = recordName id.base (ts.map name) := by
  rw [name, names_eq_map]

theorem subst_record (id : RecordId) (args ts : List MessageType) :
    (record id ts).subst args = record id (ts.map (subst args)) := by
  rw [subst, substAll_eq_map]

theorem mem_name_of_mem_base (h : c ∈ id.base.toList) (ts : List MessageType) :
    c ∈ (record id ts).name.toList := by
  rw [name_record]
  cases ts with
  | nil => exact h
  | cons t ts =>
    rw [List.map_cons, recordName, toList_generic]
    · exact List.mem_append_left _ h
    · simp

theorem mem_name_of_mem_arg (ht : t ∈ ts) (h : c ∈ t.name.toList) :
    c ∈ (record id ts).name.toList := by
  have joined : ∀ (pieces : List (List Char)) (p : List Char), p ∈ pieces → c ∈ p →
      c ∈ List.intercalate [',', ' '] pieces := by
    intro pieces p hp hc
    induction pieces with
    | nil => cases hp
    | cons q qs ih =>
      cases qs with
      | nil =>
        obtain rfl := List.mem_singleton.mp hp
        rwa [List.intercalate_singleton]
      | cons r rs =>
        rw [List.intercalate_cons_cons]
        rcases List.mem_cons.mp hp with rfl | hp
        · simp [hc]
        · simp [ih hp]
  rw [name_record]
  cases ts with
  | nil => cases ht
  | cons u us =>
    rw [List.map_cons, recordName, toList_generic]
    · have mem : t.name.toList ∈ ((u :: us).map name).map String.toList :=
        List.mem_map_of_mem (List.mem_map_of_mem ht)
      rw [List.map_cons] at mem
      simp only [List.mem_append, List.mem_cons]
      exact .inr (.inl (.inr (joined _ _ mem h)))
    · simp

/-! ## Sequences -/

def innermost : MessageType → MessageType
  | sequence _ element => element.innermost
  | t => t

def levels : MessageType → Nat
  | sequence _ element => element.levels + 1
  | _ => 0

theorem name_eq_arrays (t : MessageType) : t.name = arrays t.innermost.name t.levels := by
  induction t with
  | sequence storage element ih => exact congrArg array ih
  | _ => rfl

/-! ## Binding parameters one by one -/

/-- The arguments from an index on, and before them the parameters themselves. -/
def argumentsFrom (index : Nat) (args : List MessageType) : List MessageType :=
  (List.range index).map parameter ++ args.drop index

theorem getElem?_argumentsFrom (index : Nat) (args : List MessageType) (i : Nat) :
    (argumentsFrom index args)[i]? = if i < index then some (parameter i) else args[i]? := by
  split
  · next less =>
    rw [argumentsFrom, List.getElem?_append_left (by simpa using less)]
    simp [less]
  · next more =>
    rw [argumentsFrom, List.getElem?_append_right (by simpa using more), List.getElem?_drop]
    simp only [List.length_map, List.length_range]
    congr 1
    omega

theorem subst_parameters (count : Nat) (t : MessageType) :
    t.subst ((List.range count).map parameter) = t := by
  induction t with
  | primitive p => rfl
  | parameter i =>
    rw [subst, List.getElem?_map]
    by_cases less : i < count
    · simp [less]
    · rw [List.getElem?_eq_none (by simpa using less)]
      rfl
  | sequence storage element ih => rw [subst, ih]
  | record id ts ih =>
    rw [subst_record, List.map_congr_left ih, List.map_id']

/-- Binding one more parameter of a type is to replace it in the name, if all parameters are bound
in the end. -/
theorem replaces_name (small : index < args.length)
    (bound : '$' ∉ (t.subst args).name.toList) :
    Replaces index (args[index].name) (t.subst (argumentsFrom (index + 1) args)).name.toList
      (t.subst (argumentsFrom index args)).name.toList := by
  induction t with
  | primitive p => exact replaces_plain bound
  | parameter i =>
    rw [subst] at bound
    rw [subst, subst, getElem?_argumentsFrom, getElem?_argumentsFrom]
    rcases Nat.lt_trichotomy i index with less | rfl | more
    · rw [if_pos (Nat.lt_succ_of_lt less), if_pos less]
      exact replaces_lower less
    · rw [if_pos (Nat.lt_succ_self i), if_neg (Nat.lt_irrefl i), List.getElem?_eq_getElem small]
      exact replaces_parameter i _
    · rw [if_neg (by omega), if_neg (by omega)]
      exact replaces_plain bound
  | sequence storage element ih =>
    rw [subst, name, toList_array] at bound
    rw [subst, subst, name, name, toList_array, toList_array]
    exact (ih fun mem => bound (List.mem_append_left _ mem)).append (replaces_plain (by decide))
      (ended_of_head rfl _) (List.cons_ne_nil _ _)
  | record id ts ih =>
    rw [subst_record] at bound
    have plain : '$' ∉ id.base.toList := fun mem => bound (mem_name_of_mem_base mem _)
    rw [subst_record, subst_record, name_record, name_record]
    cases ts with
    | nil => exact replaces_plain plain
    | cons u us =>
      refine replaces_generic plain ?_
      rw [List.map_map, List.map_map, List.forall₂_map_left_iff, List.forall₂_map_right_iff]
      refine List.forall₂_same.mpr fun v hv => ih v hv fun mem => ?_
      exact bound (mem_name_of_mem_arg (List.mem_map_of_mem hv) mem)

theorem substitute_name (bound : '$' ∉ (t.subst args).name.toList) :
    substitute t.name (args.map name) = (t.subst args).name := by
  have step : ∀ (rest : List MessageType) (index : Nat), args.drop index = rest →
      index ≤ args.length → substituteFrom index (rest.map name) t.name.toList =
        (t.subst (argumentsFrom index args)).name.toList := by
    intro rest
    induction rest with
    | nil =>
      intro index none small
      obtain rfl : index = args.length := Nat.le_antisymm small (List.drop_eq_nil_iff.mp none)
      rw [argumentsFrom, List.drop_length, List.append_nil, subst_parameters]
      rfl
    | cons a rest ih =>
      intro index split small
      have less : index < args.length := by
        by_contra more
        rw [List.drop_eq_nil_of_le (Nat.not_lt.mp more)] at split
        cases split
      rw [List.drop_eq_getElem_cons less] at split
      obtain ⟨rfl, tail⟩ := List.cons.inj split
      have replaced := replaces_name less bound [] (fun _ no => by cases no)
      rw [List.append_nil] at replaced
      rw [List.map_cons, substituteFrom, ih (index + 1) tail less, replaced]
      exact List.append_nil _
  rw [substitute, step args 0 rfl (Nat.zero_le _)]
  exact String.ofList_toList

theorem hasParameters_eq_false : hasParameters t.name = false ↔ '$' ∉ t.name.toList := by
  rw [hasParameters, List.contains_eq_mem, decide_eq_false_iff_not]

theorem subst_of_unmarked (h : '$' ∉ t.name.toList) (args : List MessageType) :
    t.subst args = t := by
  induction t with
  | primitive p => rfl
  | parameter i =>
    refine absurd ?_ h
    rw [name, toList_parameter]
    exact List.mem_cons_self
  | sequence storage element ih =>
    rw [name, toList_array] at h
    rw [subst, ih fun mem => h (List.mem_append_left _ mem)]
  | record id ts ih =>
    rw [subst_record, List.map_congr_left fun t ht => ih t ht fun mem =>
      h (mem_name_of_mem_arg ht mem), List.map_id']

end SchemaCodec.MessageType
