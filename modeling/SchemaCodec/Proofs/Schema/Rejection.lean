import SchemaCodec.Proofs.Schema.Completeness

/-! # When extraction fails

Where a root leads to finitely many names of records, discovery ends: it meets the records in
preorder, or it comes upon a type that has no encoding of its own. A definition of a name that was
passed over is the one that was visited, so nothing without an encoding is missed.
-/

namespace SchemaCodec

open Relation Descriptor

namespace Descriptor

/-- The type has no encoding, whatever it leads to. -/
inductive Obstructed (C : Catalog) : Descriptor → Prop

  | decimal : Obstructed C (.primitive .decimal)

  | parameter (index : Nat) : Obstructed C (.parameter index)

  | noDefault {r : Descriptor} : r.isRecord = true → r.constructible C = false → Obstructed C r

  | duplicate {r : Descriptor} : r.isRecord = true → ¬ ((r.members C).map Prod.fst).Nodup →
      Obstructed C r

/-- The root leads to no obstructed type. -/
def Clear (C : Catalog) (root : Descriptor) : Prop := ∀ d, Reaches C root d → ¬ Obstructed C d

/-- The root leads to records of no more names than the catalogue allows for. -/
def Bounded (C : Catalog) (root : Descriptor) : Prop :=
  ∃ names : List String, names.length ≤ C.capacity ∧
    ∀ r, Reaches C root r → r.isRecord = true → r.name ∈ names

/-- Visiting the types in turn, where the records of some names were met before, meets the records of
these further names: each record comes before what its members lead to, and these come in the order
of declaration. -/
inductive Preorder (C : Catalog) : List String → List Descriptor → List String → Prop

  | nil {met : List String} : Preorder C met [] []

  | leaf {met new : List String} {d : Descriptor} {rest : List Descriptor} :
      d.innermost.isRecord = false → Preorder C met rest new → Preorder C met (d :: rest) new

  | known {met new : List String} {d : Descriptor} {rest : List Descriptor} :
      d.innermost.isRecord = true → d.innermost.name ∈ met → Preorder C met rest new →
      Preorder C met (d :: rest) new

  | record {met new : List String} {d : Descriptor} {rest : List Descriptor} :
      d.innermost.isRecord = true → d.innermost.name ∉ met →
      Preorder C (met ++ [d.innermost.name]) ((d.innermost.members C).map Prod.snd ++ rest) new →
      Preorder C met (d :: rest) (d.innermost.name :: new)

variable {C : Catalog} {root d : Descriptor} {met new more other : List String}
  {xs ys : List Descriptor}

theorem Preorder.append (h : Preorder C met xs new) (h' : Preorder C (met ++ new) ys more) :
    Preorder C met (xs ++ ys) (new ++ more) := by
  induction h with
  | nil => simpa using h'
  | leaf leaf _ ih => exact .leaf leaf (ih h')
  | known isRecord old _ ih => exact .known isRecord old (ih h')
  | record isRecord new _ ih =>
    apply Preorder.record isRecord new
    simpa using ih (by simpa using h')

/-- There is only one preorder. -/
theorem Preorder.eq (h : Preorder C met xs new) (h' : Preorder C met xs other) : new = other := by
  induction h generalizing other with
  | nil => cases h'; rfl
  | leaf leaf _ ih =>
    cases h' with
    | leaf _ rest => exact ih rest
    | known isRecord _ _ => simp [leaf] at isRecord
    | record isRecord _ _ => simp [leaf] at isRecord
  | known isRecord old _ ih =>
    cases h' with
    | leaf leaf _ => simp [leaf] at isRecord
    | known _ _ rest => exact ih rest
    | record _ new _ => exact absurd old new
  | record isRecord new _ ih =>
    cases h' with
    | leaf leaf _ => simp [leaf] at isRecord
    | known _ old _ => exact absurd old new
    | record _ _ rest => exact congrArg _ (ih rest)

end Descriptor

namespace Discovery

variable {C : Catalog} {root d : Descriptor} {found : List Descriptor} {budget : Nat}
  {names : List String}

/-! ## One visit -/

theorem visit_known (isRecord : d.innermost.isRecord = true)
    (known : ∃ r ∈ found, r.name = d.innermost.name) : visit C budget d found = .ok found := by
  have any : found.any (fun r => decide (r.name = d.innermost.name)) = true := by simpa using known
  rw [visit.eq_def]
  dsimp only
  cases inner : d.innermost with
  | declared id args => rw [inner] at any; exact if_pos any
  | built name short origin members => rw [inner] at any; exact if_pos any
  | _ => simp [inner, Descriptor.isRecord] at isRecord

theorem visit_new (isRecord : d.innermost.isRecord = true)
    (new : ¬ ∃ r ∈ found, r.name = d.innermost.name) :
    visit C (budget + 1) d found =
      if d.innermost.constructible C = true then
        visitMembers (visit C budget) d.innermost.name [] (d.innermost.members C)
          (found ++ [d.innermost])
      else .error (.notSerializable d.innermost.name .noDefault) := by
  have none : ¬ found.any (fun r => decide (r.name = d.innermost.name)) = true := by simpa using new
  rw [visit.eq_def]
  dsimp only
  cases inner : d.innermost with
  | declared id args =>
    rw [inner] at none
    refine (if_neg none).trans ?_
    cases (Descriptor.declared id args).constructible C <;> rfl
  | built name short origin members =>
    rw [inner] at none
    refine (if_neg none).trans ?_
    cases (Descriptor.built name short origin members).constructible C <;> rfl
  | _ => simp [inner, Descriptor.isRecord] at isRecord

/-- What a visit may do: it meets the records in preorder, all of which can be built from nothing, or
it comes upon an obstructed type. -/
def Visited (C : Catalog) (found : List Descriptor) (xs : List Descriptor)
    (outcome : Except Error (List Descriptor)) : Prop :=
  (∃ new, outcome = .ok (found ++ new) ∧
    Preorder C (found.map Descriptor.name) xs (new.map Descriptor.name) ∧
    ∀ r ∈ new, r.constructible C = true) ∨
  ∃ owner obstacle, outcome = .error (.notSerializable owner obstacle) ∧
    ∃ x ∈ xs, ∃ d, Reaches C x d ∧ Obstructed C d

variable {xs ys : List Descriptor} {outcome : Except Error (List Descriptor)}

theorem Visited.of_leaf (leaf : ¬ d.innermost.isRecord = true) :
    Visited C found [d] (visit C budget d found) := by
  have reached := reaches_innermost C d
  rw [visit.eq_def]
  dsimp only
  cases inner : d.innermost with
  | primitive p =>
    by_cases decimal : p = .decimal
    · subst decimal
      exact .inr ⟨_, _, rfl, d, by simp, _, reached, inner ▸ .decimal⟩
    · have ok : Visited C found [d] (.ok found) :=
        .inl ⟨[], by simp, .leaf (by simpa using leaf) .nil, by simp⟩
      cases p with
      | decimal => exact absurd rfl decimal
      | scalar => exact ok
      | string => exact ok
  | parameter i => exact .inr ⟨_, _, rfl, d, by simp, _, reached, inner ▸ .parameter i⟩
  | sequence container element => exact absurd inner (innermost_ne_sequence d _ _)
  | declared => simp [inner, Descriptor.isRecord] at leaf
  | built => simp [inner, Descriptor.isRecord] at leaf

theorem Visited.of_known (isRecord : d.innermost.isRecord = true)
    (known : ∃ r ∈ found, r.name = d.innermost.name) :
    Visited C found [d] (visit C budget d found) := by
  rw [visit_known isRecord known]
  exact .inl ⟨[], by simp, .known isRecord (by simpa using known) .nil, by simp⟩

theorem visited_members
    {visit : Descriptor → List Descriptor → Except Error (List Descriptor)} (owner : String)
    (seen : List String) {members : List (String × Descriptor)}
    (visited : ∀ new, ∀ m ∈ members, Visited C (found ++ new) [m.2] (visit m.2 (found ++ new))) :
    Visited C found (members.map Prod.snd) (visitMembers visit owner seen members found) ∨
      ∃ obstacle, visitMembers visit owner seen members found =
        .error (.notSerializable owner obstacle) ∧ ¬ (seen ++ members.map Prod.fst).Nodup := by
  induction members generalizing seen found with
  | nil => exact .inl (.inl ⟨[], by simp [visitMembers], .nil, by simp⟩)
  | cons m rest ih =>
    obtain ⟨name, d⟩ := m
    rw [visitMembers]
    by_cases again : name ∈ seen
    · rw [if_pos again]
      refine .inr ⟨_, rfl, fun nodup => ?_⟩
      exact (List.nodup_append.mp nodup).2.2 name again name (by simp) rfl
    · rw [if_neg again]
      have first := visited [] (name, d) (by simp)
      rw [List.append_nil] at first
      rcases first with ⟨new, ok, walk, fine⟩ | ⟨other, obstacle, failed, x, hx, bad⟩
      · simp only [ok]
        have later : ∀ more, ∀ m ∈ rest, Visited C (found ++ new ++ more) [m.2]
            (visit m.2 (found ++ new ++ more)) := fun more m mem => by
          simpa using visited (new ++ more) m (by simp [mem])
        rcases ih (name :: seen) later with (⟨more, ok', walk', fine'⟩ |
          ⟨other, obstacle, failed, x, hx, bad⟩) | ⟨obstacle, failed, twice⟩
        · refine .inl (.inl ⟨new ++ more, by simpa using ok', ?_, ?_⟩)
          · simpa using walk.append (by simpa using walk')
          · simpa [or_imp, forall_and] using ⟨fine, fine'⟩
        · exact .inl (.inr ⟨other, obstacle, failed, x, by simp_all, bad⟩)
        · refine .inr ⟨obstacle, failed, fun nodup => twice ?_⟩
          exact List.perm_middle.nodup_iff.mp nodup
      · simp only [failed]
        exact .inl (.inr ⟨other, obstacle, rfl, x, by simp_all, bad⟩)

theorem length_filter_lt {names found : List String} (more : List String) {name : String}
    (mem : name ∈ names) (new : name ∉ found) (noted : name ∈ more) :
    (names.filter (· ∉ found ++ more)).length < (names.filter (· ∉ found)).length := by
  have : names.filter (· ∉ found ++ more) = (names.filter (· ∉ found)).filter (· ∉ more) := by
    simp [List.filter_filter, Bool.and_comm]
  rw [this]
  apply List.length_filter_lt_length_iff_exists.mpr
  exact ⟨name, by simp [mem, new], by simp [noted]⟩

theorem Visited.of_members
    {visit : Descriptor → List Descriptor → Except Error (List Descriptor)}
    (isRecord : d.innermost.isRecord = true) (constructible : d.innermost.constructible C = true)
    (new : d.innermost.name ∉ found.map Descriptor.name)
    (inside : ∀ more, ∀ m ∈ d.innermost.members C, Visited C (found ++ [d.innermost] ++ more) [m.2]
      (visit m.2 (found ++ [d.innermost] ++ more))) :
    Visited C found [d] (visitMembers visit d.innermost.name [] (d.innermost.members C)
      (found ++ [d.innermost])) := by
  have reached := reaches_innermost C d
  rcases visited_members d.innermost.name [] inside with
    (⟨more, ok, walk, fine⟩ | ⟨owner, obstacle, failed, x, hx, bad, further, obstructed⟩) |
    ⟨obstacle, failed, twice⟩
  · refine .inl ⟨d.innermost :: more, by simpa using ok, ?_, ?_⟩
    · apply Preorder.record isRecord new
      simpa using walk
    · simpa using ⟨constructible, fine⟩
  · obtain ⟨m, mem, rfl⟩ := List.mem_map.mp hx
    have path := (reached.member mem).trans further
    exact .inr ⟨owner, obstacle, failed, d, by simp, bad, path, obstructed⟩
  · exact .inr ⟨_, obstacle, failed, d, by simp, _, reached,
      .duplicate isRecord (by simpa using twice)⟩

/-- A budget of as many records as there are names left is enough. -/
theorem visited (names : List String)
    (listed : ∀ r, Reaches C d r → r.isRecord = true → r.name ∈ names)
    (enough : (names.filter (· ∉ found.map Descriptor.name)).length ≤ budget) :
    Visited C found [d] (visit C budget d found) := by
  induction budget generalizing d found with
  | zero =>
    by_cases isRecord : d.innermost.isRecord = true
    · apply Visited.of_known isRecord
      have all : ∀ name ∈ names, ∃ r ∈ found, r.name = name := by simpa using enough
      exact all _ (listed _ (reaches_innermost C d) isRecord)
    · exact .of_leaf isRecord
  | succ budget ih =>
    by_cases isRecord : d.innermost.isRecord = true
    · by_cases known : ∃ r ∈ found, r.name = d.innermost.name
      · exact .of_known isRecord known
      · have new : d.innermost.name ∉ found.map Descriptor.name := by
          rwa [List.mem_map]
        have reached := reaches_innermost C d
        rw [visit_new isRecord known]
        split
        · next constructible =>
          apply Visited.of_members isRecord constructible new
          intro more m mem
          apply ih fun r reached' => listed r ((reached.member mem).trans reached')
          have fewer := length_filter_lt (d.innermost.name :: more.map Descriptor.name)
            (listed _ reached isRecord) new (by simp)
          rw [List.append_assoc, List.map_append]
          exact Nat.le_of_lt_succ (Nat.lt_of_lt_of_le fewer enough)
        · next stuck =>
          exact .inr ⟨_, _, rfl, d, by simp, _, reached, .noDefault isRecord (by simpa using stuck)⟩
    · exact .of_leaf isRecord

theorem clear_of_records (definite : Definite C root) (h : records C root = .ok found)
    (constructible : ∀ r ∈ found, r.constructible C = true) : Clear C root := by
  obtain ⟨closed, covered⟩ := reached_of_definite definite h
  have defined : ∀ r, Reaches C root r → r.isRecord = true →
      ∃ r' ∈ found, SameRecord C r r' := by
    intro r reached isRecord
    obtain ⟨r', mem, same⟩ := (covered r reached).exists_found isRecord
    obtain ⟨isRecord', reached', -⟩ := closed r' mem
    exact ⟨r', mem, definite r r' reached reached' isRecord isRecord' same.symm⟩
  intro d reached obstructed
  cases obstructed with
  | decimal =>
    rcases covered _ reached with ⟨p, coded, same⟩ | ⟨no, -⟩
    · cases same
      exact coded rfl
    · cases no
  | parameter index =>
    rcases covered _ reached with ⟨p, -, no⟩ | ⟨no, -⟩
    · cases no
    · cases no
  | noDefault isRecord stuck =>
    obtain ⟨r', mem, same⟩ := defined d reached isRecord
    simp [same.constructible, constructible r' mem] at stuck
  | duplicate isRecord twice =>
    obtain ⟨r', mem, same⟩ := defined d reached isRecord
    obtain ⟨-, -, closed'⟩ := closed r' mem
    exact twice (same.names.nodup_iff.mpr closed'.unique)

/-- Discovery succeeds where every type has an encoding, and meets the records in preorder. -/
theorem records_cases (definite : Definite C root) (bounded : Bounded C root) :
    (∃ found, records C root = .ok found ∧ Clear C root ∧
      Preorder C [] [root] (found.map Descriptor.name)) ∨
    ∃ owner obstacle, records C root = .error (.notSerializable owner obstacle) ∧
      ¬ Clear C root := by
  obtain ⟨names, fits, listed⟩ := bounded
  have enough : (names.filter (· ∉ ([] : List Descriptor).map Descriptor.name)).length ≤
      C.capacity := by simpa using fits
  rcases visited names listed enough with ⟨found, ok, walk, constructible⟩ |
    ⟨owner, obstacle, failed, x, hx, d, path, obstructed⟩
  · exact .inl ⟨found, ok, clear_of_records definite ok constructible, walk⟩
  · obtain rfl := List.mem_singleton.mp hx
    exact .inr ⟨owner, obstacle, failed, fun clear => clear d path obstructed⟩

end Discovery

namespace Extraction

open Discovery

variable {C : Catalog} {root : Descriptor}

/-- The names are those of the records that the root leads to from which a cycle can be reached, in
the order of discovery. -/
structure Entangled (C : Catalog) (root : Descriptor) (remaining : List String) : Prop where
  order : ∃ met, Preorder C [] [root] met ∧ remaining.Sublist met
  unique : remaining.Nodup
  mem_iff : ∀ name, name ∈ remaining ↔ LeadsToCycle (Embeds C root) name

theorem names_entries (C : Catalog) (found : List Descriptor) :
    (found.map (entry C)).map Ordering.Entry.name = found.map Descriptor.name := by
  rw [List.map_map]
  rfl

theorem need_mem_names {found : List Descriptor} (definite : Definite C root)
    (records : Discovery.records C root = .ok found) :
    ∀ e ∈ found.map (entry C), ∀ need ∈ e.needs, need ∈ found.map Descriptor.name := by
  obtain ⟨closed, -⟩ := reached_of_definite definite records
  intro e mem need hneed
  obtain ⟨r, hr, rfl⟩ := List.mem_map.mp mem
  obtain ⟨isRecord, reached, -⟩ := closed r hr
  obtain ⟨r', reached', -, m, hm, inner, rfl⟩ :=
    (embeds_iff_needs definite reached isRecord).mpr hneed
  exact (mem_names_of_definite definite records).mpr ⟨_, (reached'.member hm).innermost, inner, rfl⟩

theorem ofDescriptor_of_definite (definite : Definite C root) (bounded : Bounded C root) :
    (∃ ext, ofDescriptor C root = .ok ext ∧ Clear C root ∧
      ¬ ∃ name, TransGen (Embeds C root) name name) ∨
    (∃ owner obstacle, ofDescriptor C root = .error (.notSerializable owner obstacle) ∧
      ¬ Clear C root) ∨
    ∃ remaining, ofDescriptor C root = .error (.dependencyCycle remaining) ∧ Clear C root ∧
      (∃ name, TransGen (Embeds C root) name name) ∧ Entangled C root remaining := by
  rcases records_cases definite bounded with ⟨found, records, clear, walk⟩ |
    ⟨owner, obstacle, failed, obstructed⟩
  · have unique := nodup_records records
    have needed := need_mem_names definite records
    rw [← names_entries] at unique needed walk
    rcases Ordering.order_cases unique needed with ⟨⟨out, ok⟩, acyclic⟩ |
      ⟨remaining, failed, nonempty, sublist, mem_iff⟩
    · rw [needs_entries definite records] at acyclic
      obtain ⟨ext, extracted⟩ : ∃ ext, ofDescriptor C root = .ok ext :=
        ⟨_, by simp only [ofDescriptor, bind, Except.bind, records, ok]; rfl⟩
      refine .inl ⟨ext, extracted, clear, ?_⟩
      rw [← exists_leadsToCycle_iff]
      rintro ⟨a, cycle⟩
      exact acyclic a cycle
    · rw [needs_entries definite records] at mem_iff
      obtain ⟨name, mem⟩ := List.exists_mem_of_ne_nil _ nonempty
      have stuck : ofDescriptor C root = .error (.dependencyCycle remaining) := by
        simp only [ofDescriptor, bind, Except.bind, records, failed]
      refine .inr (.inr ⟨remaining, stuck, clear, ?_, ?_⟩)
      · exact exists_leadsToCycle_iff.mp ⟨name, (mem_iff name).mp mem⟩
      · exact ⟨⟨_, walk, sublist⟩, sublist.nodup unique, mem_iff⟩
  · have rejected : ofDescriptor C root = .error (.notSerializable owner obstacle) := by
      simp only [ofDescriptor, bind, Except.bind, failed]
    exact .inr (.inl ⟨owner, obstacle, rejected, obstructed⟩)

theorem ofDescriptor_cases (unambiguous : Unambiguous C root) (bounded : Bounded C root) :
    (∃ ext, ofDescriptor C root = .ok ext ∧ Clear C root ∧
      ¬ ∃ name, TransGen (Embeds C root) name name) ∨
    (∃ owner obstacle, ofDescriptor C root = .error (.notSerializable owner obstacle) ∧
      ¬ Clear C root) ∨
    ∃ remaining, ofDescriptor C root = .error (.dependencyCycle remaining) ∧ Clear C root ∧
      (∃ name, TransGen (Embeds C root) name name) ∧ Entangled C root remaining :=
  ofDescriptor_of_definite unambiguous.definite bounded

end Extraction

end SchemaCodec
