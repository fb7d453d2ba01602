import Mathlib.Data.List.Forall2

/-! # Related lists and look-up

Every item of one of two related lists has a partner in the other. What is looked up in a list of
entries is an entry, and the only entry under a key is found.
-/

namespace SchemaCodec

variable {α β : Type} {R : α → β → Prop} {xs : List α} {ys : List β}

theorem partner_right (h : List.Forall₂ R xs ys) {x : α} (hx : x ∈ xs) : ∃ y ∈ ys, R x y := by
  induction h with
  | nil => cases hx
  | cons head _ ih =>
    rcases List.mem_cons.mp hx with rfl | hx
    · exact ⟨_, List.mem_cons_self, head⟩
    · obtain ⟨y, hy, hxy⟩ := ih hx
      exact ⟨y, List.mem_cons_of_mem _ hy, hxy⟩

theorem partner_left (h : List.Forall₂ R xs ys) {y : β} (hy : y ∈ ys) : ∃ x ∈ xs, R x y :=
  partner_right h.flip hy

theorem partner_getElem? (h : List.Forall₂ R xs ys) {i : Nat} {x : α} (found : xs[i]? = some x) :
    ∃ y, ys[i]? = some y ∧ R x y := by
  induction h generalizing i with
  | nil => cases found
  | cons head _ ih =>
    cases i with
    | zero =>
      obtain rfl := Option.some.inj found
      exact ⟨_, rfl, head⟩
    | succ i => exact ih found

theorem map_eq_map {γ : Type} {f : α → γ} {g : β → γ}
    (h : List.Forall₂ (fun x y => f x = g y) xs ys) : xs.map f = ys.map g := by
  induction h with
  | nil => rfl
  | cons head _ ih => rw [List.map_cons, List.map_cons, head, ih]

theorem forall₂_of_map_eq {γ : Type} {f : α → γ} {g : β → γ} (h : xs.map f = ys.map g) :
    List.Forall₂ (fun x y => f x = g y ∧ x ∈ xs ∧ y ∈ ys) xs ys := by
  induction xs generalizing ys with
  | nil =>
    obtain rfl := List.map_eq_nil_iff.mp h.symm
    exact .nil
  | cons x xs ih =>
    cases ys with
    | nil => cases h
    | cons y ys =>
      obtain ⟨head, tail⟩ := List.cons.inj h
      refine .cons ⟨head, List.mem_cons_self, List.mem_cons_self⟩ ((ih tail).imp ?_)
      rintro a b ⟨same, ha, hb⟩
      exact ⟨same, List.mem_cons_of_mem _ ha, List.mem_cons_of_mem _ hb⟩

theorem forall₂_zip (length : xs.length = ys.length) :
    List.Forall₂ (fun x y => (x, y) ∈ xs.zip ys) xs ys :=
  List.forall₂_iff_zip.mpr ⟨length, fun mem => mem⟩

theorem forall₂_comp {γ : Type} {S : β → γ → Prop} {zs : List γ} (h : List.Forall₂ R xs ys)
    (h' : List.Forall₂ S ys zs) : List.Forall₂ (fun x z => ∃ y, R x y ∧ S y z) xs zs := by
  induction h generalizing zs with
  | nil =>
    cases h'
    exact .nil
  | cons head _ ih =>
    cases h' with
    | cons head' tail' => exact .cons ⟨_, head, head'⟩ (ih tail')

theorem exists_partners (h : ∀ x ∈ xs, ∃ y, R x y) : ∃ ys, List.Forall₂ R xs ys := by
  induction xs with
  | nil => exact ⟨[], .nil⟩
  | cons x xs ih =>
    obtain ⟨y, head⟩ := h x List.mem_cons_self
    obtain ⟨ys, tail⟩ := ih fun z hz => h z (List.mem_cons_of_mem x hz)
    exact ⟨y :: ys, .cons head tail⟩

section Lookup

variable [BEq α] [LawfulBEq α] {entries : List (α × β)} {key : α} {y : β}

theorem mem_of_lookup (h : entries.lookup key = some y) : (key, y) ∈ entries := by
  obtain ⟨before, after, rfl, -⟩ := List.lookup_eq_some_iff.mp h
  exact List.mem_append_right _ List.mem_cons_self

theorem lookup_of_mem (unique : (entries.map Prod.fst).Nodup) (mem : (key, y) ∈ entries) :
    entries.lookup key = some y := by
  obtain ⟨before, after, rfl⟩ := List.append_of_mem mem
  refine List.lookup_eq_some_iff.mpr ⟨before, after, rfl, ?_⟩
  rintro p hp
  rw [List.map_append, List.map_cons] at unique
  have apart := (List.nodup_append.mp unique).2.2 p.1 (List.mem_map_of_mem hp) key
    List.mem_cons_self
  exact bne_iff_ne.mpr (Ne.symm apart)

end Lookup

/-- What is related to the members of a list one by one is one list, if it is one for each. -/
theorem forall₂_unique {P P' : α → β → Prop} {ys' : List β}
    (agree : ∀ x ∈ xs, ∀ y y', P x y → P' x y' → y' = y) (h : List.Forall₂ P xs ys)
    (h' : List.Forall₂ P' xs ys') : ys' = ys := by
  induction h generalizing ys' with
  | nil =>
    cases h'
    rfl
  | cons head _ ih =>
    cases h' with
    | cons head' tail' =>
      rw [agree _ List.mem_cons_self _ _ head head',
        ih (fun x hx => agree x (List.mem_cons_of_mem _ hx)) tail']

end SchemaCodec
