import SchemaCodec.Primitive
import SchemaCodec.Proofs.Lists
import SchemaCodec.TypeName.Basic

/-! # Names of sequences

A name that is no sequence of its own can be told from the marks of sequences after it. The names
of primitives are such names, and so are all well-formed names of records.
-/

namespace SchemaCodec

namespace TypeName

/-- The name has no blanks around it, its angle brackets match, and it has no mark of a sequence
outside them. -/
structure Atomic (name : String) : Prop where
  trimmed : trim name.toList = name.toList
  closed : ∀ before after, name.toList = before ++ after → before.count '>' ≤ before.count '<'
  balanced : name.toList.count '>' = name.toList.count '<'
  plain : ∀ before after, name.toList = before ++ '[' :: ']' :: after →
    before.count '>' < before.count '<'

/-- The name can be that of a record: it is atomic, and no primitive is spelled so. -/
structure WellFormed (name : String) : Prop extends Atomic name where
  foreign : Primitive.ofSpelling? name = none

theorem toList_array (name : String) : (array name).toList = name.toList ++ ['[', ']'] := by
  rw [array, String.toList_append]
  rfl

theorem element?_array (name : String) : element? (array name) = some name := by
  rw [element?, toList_array, List.reverse_append]
  simp

theorem element?_eq_some {name element : String} :
    element? name = some element ↔ name = array element := by
  constructor
  · intro h
    rw [element?] at h
    split at h
    · next rest reversed =>
      obtain rfl := Option.some.inj h
      rw [← String.toList_inj, toList_array, String.toList_ofList,
        ← List.reverse_reverse name.toList, reversed]
      simp
    · cases h
  · rintro rfl
    exact element?_array element

theorem element?_atomic {name : String} (h : Atomic name) : element? name = none := by
  cases found : element? name with
  | none => rfl
  | some element =>
    obtain rfl := element?_eq_some.mp found
    have enclosed := h.plain element.toList [] (toList_array element)
    have balanced := h.balanced
    rw [toList_array, List.count_append, List.count_append] at balanced
    simp at balanced
    omega

theorem Atomic.ne_array {name : String} (h : Atomic name) (element : String) :
    name ≠ array element := by
  rintro rfl
  cases (element?_atomic h).symm.trans (element?_array element)

theorem array_inj {element other : String} (same : array element = array other) :
    element = other := by
  have elements := congrArg element? same
  rw [element?_array, element?_array] at elements
  exact Option.some.inj elements

/-! ## Marks at the end -/

abbrev angled (delimiter : List Char) : Cutter := ⟨delimiter, '<', '>'⟩

theorem step_count (delimiter : List Char) {depth : Nat} {c : Char}
    (first : [c].count '>' ≤ depth + [c].count '<') (cs : List Char) :
    (angled delimiter).step depth c + cs.count '<' + (c :: cs).count '>' =
      depth + (c :: cs).count '<' + cs.count '>' := by
  rw [Cutter.step]
  by_cases opens : c = '<'
  · subst opens
    simp
    omega
  · by_cases closes : c = '>'
    · subst closes
      simp at first
      simp
      omega
    · simp [opens, closes]

/-- Characters that close no bracket of others are passed over, unless a delimiter outside brackets
begins among them. -/
theorem scan_append {delimiter : List Char} (depth : Nat) {cs tail : List Char}
    (closed : ∀ before after, cs = before ++ after →
      before.count '>' ≤ depth + before.count '<')
    (whole : ∀ before after, cs = before ++ after → after ≠ [] →
      delimiter.isPrefixOf (after ++ tail) = true → before.count '>' < depth + before.count '<') :
    (angled delimiter).scan 0 depth (cs ++ tail) =
      let rest := (angled delimiter).scan 0 (depth + cs.count '<' - cs.count '>') tail
      (cs ++ rest.1, rest.2) := by
  induction cs generalizing depth with
  | nil => simp
  | cons c cs ih =>
    have uncut : ¬ (depth = 0 ∧ delimiter.isPrefixOf (c :: (cs ++ tail)) = true) := by
      rintro ⟨rfl, starts⟩
      exact absurd (whole [] (c :: cs) rfl (List.cons_ne_nil _ _) starts) (by simp)
    have moved := step_count delimiter (closed [c] cs rfl)
    rw [List.cons_append, Cutter.scan, if_neg uncut, ih ((angled delimiter).step depth c)]
    · have depth_eq : (angled delimiter).step depth c + cs.count '<' - cs.count '>' =
          depth + (c :: cs).count '<' - (c :: cs).count '>' := by
        have := moved cs
        omega
      rw [depth_eq]
      rfl
    · rintro before after rfl
      have := moved before
      have := closed (c :: before) after rfl
      omega
    · rintro before after rfl nonempty starts
      have := moved before
      have := whole (c :: before) after rfl nonempty starts
      omega

theorem Atomic.scan_append {base : String} (h : Atomic base) {tail : List Char}
    (apart : tail.head? ≠ some ']') :
    arrayCutter.scan 0 0 (base.toList ++ tail) =
      let rest := arrayCutter.scan 0 0 tail
      (base.toList ++ rest.1, rest.2) := by
  have scanned := @TypeName.scan_append ['[', ']'] 0 base.toList tail
    (fun before after split => by simpa using h.closed before after split) ?_
  · rwa [h.balanced, Nat.zero_add, Nat.sub_self] at scanned
  · intro before after split nonempty starts
    obtain ⟨c, after, rfl⟩ := List.exists_cons_of_ne_nil nonempty
    obtain ⟨rest, same⟩ := List.isPrefixOf_iff_prefix.mp starts
    obtain ⟨rfl, follows⟩ := List.cons.inj same
    rw [Nat.zero_add]
    cases after with
    | nil => exact absurd (congrArg List.head? follows).symm apart
    | cons c after =>
      obtain ⟨rfl, -⟩ := List.cons.inj follows
      exact h.plain before after split

def marks : Nat → List Char
  | 0 => []
  | depth + 1 => '[' :: ']' :: marks depth

theorem marks_succ (depth : Nat) : marks (depth + 1) = marks depth ++ ['[', ']'] := by
  induction depth with
  | zero => rfl
  | succ depth ih => exact congrArg (fun cs => '[' :: ']' :: cs) ih

theorem toList_arrays (base : String) (depth : Nat) :
    (arrays base depth).toList = base.toList ++ marks depth := by
  induction depth with
  | zero => exact (List.append_nil _).symm
  | succ depth ih => rw [arrays, toList_array, ih, List.append_assoc, marks_succ]

theorem scan_marks (depth : Nat) :
    arrayCutter.scan 0 0 (marks depth) = ([], List.replicate depth []) := by
  induction depth with
  | zero => rfl
  | succ depth ih =>
    have cut : arrayCutter.delimiter.isPrefixOf ('[' :: ']' :: marks depth) = true := rfl
    have skip : arrayCutter.delimiter.length - 1 = 1 := rfl
    rw [marks, Cutter.scan, if_pos ⟨rfl, cut⟩, skip, Cutter.scan, ih]
    rfl

theorem splitArrays_arrays {base : String} (h : Atomic base) (depth : Nat) :
    splitArrays (arrays base depth) = (base, depth) := by
  have apart : (marks depth).head? ≠ some ']' := by cases depth <;> simp [marks]
  have scanned := h.scan_append apart
  rw [scan_marks] at scanned
  rw [splitArrays, toList_arrays, Cutter.cut, if_neg (by decide), scanned]
  dsimp only
  rw [List.append_nil, h.trimmed, String.ofList_toList, List.length_replicate]

theorem arrays_inj {base other : String} {depth depth' : Nat} (h : Atomic base)
    (h' : Atomic other) (same : arrays base depth = arrays other depth') :
    base = other ∧ depth = depth' := by
  have split := splitArrays_arrays h depth
  rw [same, splitArrays_arrays h' depth'] at split
  obtain ⟨rfl, rfl⟩ := Prod.mk.inj split
  exact ⟨rfl, rfl⟩

/-! ## Names of primitives -/

def unbracketed (name : String) : Bool :=
  name.toList.all (fun c => c ≠ '<' && c ≠ '>' && c ≠ '[') && trim name.toList = name.toList

theorem atomic_of_unbracketed {name : String} (h : unbracketed name = true) : Atomic name := by
  simp only [unbracketed, Bool.and_eq_true, List.all_eq_true, decide_eq_true_eq] at h
  obtain ⟨all, trimmed⟩ := h
  have opens : ∀ cs : List Char, cs ⊆ name.toList → cs.count '<' = 0 := fun cs sub =>
    List.count_eq_zero.mpr fun mem => (all _ (sub mem)).1.1 rfl
  have closes : ∀ cs : List Char, cs ⊆ name.toList → cs.count '>' = 0 := fun cs sub =>
    List.count_eq_zero.mpr fun mem => (all _ (sub mem)).1.2 rfl
  refine ⟨trimmed, ?_, ?_, ?_⟩
  · intro before after split
    rw [closes before (split ▸ List.subset_append_left before after)]
    exact Nat.zero_le _
  · rw [opens _ (List.Subset.refl _), closes _ (List.Subset.refl _)]
  · intro before after split
    have mem : '[' ∈ name.toList := by rw [split]; simp
    exact absurd rfl (all _ mem).2

def spelled : List String := Primitive.all.map Primitive.name ++ Primitive.spellings.map Prod.fst

theorem unbracketed_spelled :
    ∀ name ∈ spelled, unbracketed name = true ∧ unbracketed ("System." ++ name) = true := by
  decide +kernel

theorem dropNamespace_cases (name : String) : name = Primitive.dropNamespace name ∨
    name = "System." ++ Primitive.dropNamespace name := by
  unfold Primitive.dropNamespace
  dsimp only
  split
  · next starts =>
    obtain ⟨rest, split⟩ := List.isPrefixOf_iff_prefix.mp starts
    right
    rw [← String.toList_inj, String.toList_append, ← split]
    simp
  · exact .inl rfl

theorem mem_spelled {name : String} {p : Primitive} (h : Primitive.ofSpelling? name = some p) :
    Primitive.dropNamespace name ∈ spelled := by
  rcases Option.or_eq_some_iff.mp h with found | ⟨-, found⟩
  · rw [Primitive.ofName?] at found
    have named : p.name = Primitive.dropNamespace name := by simpa using List.find?_some found
    exact List.mem_append_left _ (List.mem_map.mpr ⟨p, List.mem_of_find?_eq_some found, named⟩)
  · exact List.mem_append_right _ (List.mem_map.mpr ⟨_, mem_of_lookup found, rfl⟩)

theorem unbracketed_of_spelling {name : String} {p : Primitive}
    (h : Primitive.ofSpelling? name = some p) : unbracketed name = true := by
  obtain ⟨short, long⟩ := unbracketed_spelled _ (mem_spelled h)
  rcases dropNamespace_cases name with same | same
  · rwa [same]
  · rwa [same]

theorem atomic_of_spelling {name : String} {p : Primitive}
    (h : Primitive.ofSpelling? name = some p) : Atomic name :=
  atomic_of_unbracketed (unbracketed_of_spelling h)

theorem ofSpelling?_array (name : String) : Primitive.ofSpelling? (array name) = none := by
  cases found : Primitive.ofSpelling? (array name) with
  | none => rfl
  | some p => exact absurd rfl ((atomic_of_spelling found).ne_array name)

theorem ofSpelling?_name (p : Primitive) : Primitive.ofSpelling? p.name = some p := by
  rcases p with k | _ | _
  · cases k <;> decide
  · decide
  · decide

theorem atomic_name (p : Primitive) : Atomic p.name := atomic_of_spelling (ofSpelling?_name p)

theorem WellFormed.ne_name {name : String} (h : WellFormed name) (p : Primitive) :
    name ≠ p.name := by
  rintro rfl
  cases h.foreign.symm.trans (ofSpelling?_name p)

end TypeName

end SchemaCodec
