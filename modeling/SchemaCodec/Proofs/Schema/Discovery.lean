import SchemaCodec.Schema.Discovery

/-! # What discovery finds

The records found from a type are closed: their members have distinct names and lead to primitives
with an encoding and to found records only.
-/

namespace SchemaCodec

def Descriptor.members (C : Catalog) (d : Descriptor) : List (String × Descriptor) :=
  (d.members? C).getD []

namespace Discovery

/-- The type is one with an encoding, as far as the found records have one. -/
def Covered (found : List Descriptor) (d : Descriptor) : Prop :=
  (∃ p, p ≠ .decimal ∧ d.innermost = .primitive p) ∨
    d.innermost.isRecord = true ∧ ∃ r ∈ found, r.name = d.innermost.name

/-- The members of the record have distinct names and covered types. -/
structure Closed (C : Catalog) (found : List Descriptor) (record : Descriptor) : Prop where
  unique : ((record.members C).map Prod.fst).Nodup
  covered : ∀ m ∈ record.members C, Covered found m.2

/-- Types with the property lead to such types only. -/
structure Hereditary (C : Catalog) (P : Descriptor → Prop) : Prop where
  innermost : ∀ d, P d → P d.innermost
  member : ∀ d, P d → ∀ m ∈ d.members C, P m.2

structure Extends (C : Catalog) (P : Descriptor → Prop) (found found' : List Descriptor) :
    Prop where
  old : found ⊆ found'
  unique : (found.map Descriptor.name).Nodup → (found'.map Descriptor.name).Nodup
  new : ∀ r ∈ found', r ∈ found ∨ r.isRecord = true ∧ P r ∧ Closed C found' r

variable {C : Catalog} {P : Descriptor → Prop} {found found' found'' : List Descriptor}
  {d r : Descriptor}

theorem Covered.mono (h : Covered found d) (sub : found ⊆ found') : Covered found' d := by
  rcases h with leaf | ⟨isRecord, r, mem, same⟩
  · exact .inl leaf
  · exact .inr ⟨isRecord, r, sub mem, same⟩

theorem Closed.mono (h : Closed C found r) (sub : found ⊆ found') : Closed C found' r :=
  ⟨h.unique, fun m mem => (h.covered m mem).mono sub⟩

theorem Extends.refl (C : Catalog) (P : Descriptor → Prop) (found : List Descriptor) :
    Extends C P found found :=
  ⟨List.Subset.refl found, id, fun _ mem => .inl mem⟩

theorem Extends.trans (h : Extends C P found found') (h' : Extends C P found' found'') :
    Extends C P found found'' := by
  refine ⟨List.Subset.trans h.old h'.old, h'.unique ∘ h.unique, fun r mem => ?_⟩
  rcases h'.new r mem with mem' | new
  · rcases h.new r mem' with old | ⟨isRecord, hr, closed⟩
    · exact .inl old
    · exact .inr ⟨isRecord, hr, closed.mono h'.old⟩
  · exact .inr new

theorem extends_visitMembers
    {visit : Descriptor → List Descriptor → Except Error (List Descriptor)}
    (visited : ∀ d found found', P d → visit d found = .ok found' →
      Extends C P found found' ∧ Covered found' d)
    {owner : String} {seen : List String} {members : List (String × Descriptor)}
    (property : ∀ m ∈ members, P m.2)
    (h : visitMembers visit owner seen members found = .ok found') :
    Extends C P found found' ∧ (members.map Prod.fst).Nodup ∧ (∀ m ∈ members, m.1 ∉ seen) ∧
      ∀ m ∈ members, Covered found' m.2 := by
  induction members generalizing seen found with
  | nil =>
    rw [visitMembers] at h
    obtain rfl := Except.ok.inj h
    exact ⟨.refl C P found, .nil, (fun _ no => nomatch no), fun _ no => nomatch no⟩
  | cons m rest ih =>
    obtain ⟨name, d⟩ := m
    rw [visitMembers] at h
    split at h
    · cases h
    · next unseen =>
      split at h
      · cases h
      · next between first =>
        obtain ⟨head, covered⟩ := visited d found between (property _ List.mem_cons_self) first
        obtain ⟨tail, unique, apart, all⟩ :=
          ih (fun m mem => property m (List.mem_cons_of_mem _ mem)) h
        refine ⟨head.trans tail, ?_, ?_, ?_⟩
        · refine List.nodup_cons.mpr ⟨?_, unique⟩
          rintro again
          obtain ⟨m, mem, same⟩ := List.mem_map.mp again
          exact apart m mem (same ▸ List.mem_cons_self)
        · rintro m mem
          rcases List.mem_cons.mp mem with rfl | mem
          · exact unseen
          · exact fun old => apart m mem (List.mem_cons_of_mem _ old)
        · rintro m mem
          rcases List.mem_cons.mp mem with rfl | mem
          · exact covered.mono tail.old
          · exact all m mem

theorem innermost_ne_sequence (d : Descriptor) (container : Container) (element : Descriptor) :
    d.innermost ≠ .sequence container element := by
  induction d with
  | sequence _ _ ih => exact ih
  | _ => exact fun no => nomatch no

theorem visit_leaf {budget : Nat} (leaf : ¬ d.innermost.isRecord = true)
    (h : visit C budget d found = .ok found') :
    found' = found ∧ ∃ p, p ≠ .decimal ∧ d.innermost = .primitive p := by
  rw [visit.eq_def] at h
  dsimp only at h
  split at h
  · cases h
  · next p coded inner => exact ⟨(Except.ok.inj h).symm, p, coded, inner⟩
  · cases h
  · next inner => exact absurd inner (innermost_ne_sequence d _ _)
  · next primitive parameter sequence =>
    cases inner : d.innermost with
    | primitive p => exact absurd inner (primitive p)
    | parameter i => exact absurd inner (parameter i)
    | sequence container element => exact absurd inner (sequence container element)
    | declared id args => exact absurd (by rw [inner]; rfl) leaf
    | built name short origin members => exact absurd (by rw [inner]; rfl) leaf

theorem visit_record {budget : Nat} (isRecord : d.innermost.isRecord = true)
    (h : visit C budget d found = .ok found') :
    (found' = found ∧ ∃ r ∈ found, r.name = d.innermost.name) ∨
      (∀ r ∈ found, r.name ≠ d.innermost.name) ∧ d.innermost.constructible C = true ∧
      ∃ n, budget = n + 1 ∧ visitMembers (visit C n) d.innermost.name [] (d.innermost.members C)
          (found ++ [d.innermost]) = .ok found' := by
  rw [visit.eq_def] at h
  dsimp only at h
  cases inner : d.innermost with
  | primitive p => rw [inner] at isRecord; cases isRecord
  | parameter i => rw [inner] at isRecord; cases isRecord
  | sequence container element => rw [inner] at isRecord; cases isRecord
  | _ =>
    rw [inner] at h
    dsimp only at h
    split at h
    · next known =>
      obtain ⟨r, mem, same⟩ := List.any_eq_true.mp known
      exact .inl ⟨(Except.ok.inj h).symm, r, mem, of_decide_eq_true same⟩
    · next unknown =>
      have new : ∀ r ∈ found, r.name ≠ _ := fun r mem same =>
        unknown (List.any_eq_true.mpr ⟨r, mem, decide_eq_true same⟩)
      split at h
      · cases h
      · next constructible =>
        rw [Bool.not_eq_true', Bool.not_eq_false] at constructible
        cases budget with
        | zero => cases h
        | succ n => exact .inr ⟨new, constructible, n, rfl, h⟩

theorem extends_visit (hereditary : Hereditary C P) (budget : Nat) (property : P d)
    (h : visit C budget d found = .ok found') : Extends C P found found' ∧ Covered found' d := by
  induction budget using Nat.strongRecOn generalizing d found found' with
  | _ budget ih =>
    by_cases isRecord : d.innermost.isRecord = true
    · rcases visit_record isRecord h with ⟨rfl, known⟩ | ⟨new, -, n, rfl, members⟩
      · exact ⟨.refl C P found', .inr ⟨isRecord, known⟩⟩
      · have inner : P d.innermost := hereditary.innermost d property
        obtain ⟨more, unique, -, covered⟩ := extends_visitMembers
          (fun d found found' => ih n (Nat.lt_succ_self n)) (hereditary.member _ inner) members
        have noted : d.innermost ∈ found' := more.old (List.mem_append_right _ List.mem_cons_self)
        refine ⟨⟨?_, ?_, ?_⟩, .inr ⟨isRecord, d.innermost, noted, rfl⟩⟩
        · exact List.Subset.trans (List.subset_append_left _ _) more.old
        · intro names
          refine more.unique ?_
          rw [List.map_append, List.nodup_append]
          refine ⟨names, List.pairwise_singleton _ _, ?_⟩
          rintro _ old _ last rfl
          obtain ⟨r, mem, same⟩ := List.mem_map.mp old
          exact new r mem (same.trans (List.mem_singleton.mp last))
        · intro r mem
          rcases more.new r mem with before | new
          · rcases List.mem_append.mp before with old | last
            · exact .inl old
            · obtain rfl := List.mem_singleton.mp last
              exact .inr ⟨isRecord, inner, unique, covered⟩
          · exact .inr new
    · obtain ⟨rfl, coded⟩ := visit_leaf isRecord h
      exact ⟨.refl C P found', .inl coded⟩

theorem hereditary_true (C : Catalog) : Hereditary C fun _ => True where
  innermost := fun _ _ => trivial
  member := fun _ _ _ _ => trivial

theorem nodup_records (h : records C d = .ok found) : (found.map Descriptor.name).Nodup :=
  (extends_visit (hereditary_true C) C.capacity trivial h).1.unique .nil

/-- The records found from a type are closed and have its property, and they cover it. -/
theorem closed_records (hereditary : Hereditary C P) (property : P d)
    (h : records C d = .ok found) :
    (∀ r ∈ found, r.isRecord = true ∧ P r ∧ Closed C found r) ∧ Covered found d := by
  obtain ⟨more, covered⟩ := extends_visit hereditary C.capacity property h
  refine ⟨fun r mem => ?_, covered⟩
  rcases more.new r mem with no | new
  · cases no
  · exact new

end Discovery

end SchemaCodec
