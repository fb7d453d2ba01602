import SchemaCodec.Proofs.Schema.Rejection

/-! # Extraction of like types

Two types that lead to records of the same names with the same members, in the same order, have the
same schema, however their records are described.
-/

namespace SchemaCodec

open Descriptor Discovery

/-- Related types are alike, and so is what they lead to. A record that can be built from nothing is
related to such records only. -/
structure Descriptor.Simulates (C : Catalog) (P : Descriptor → Descriptor → Prop) : Prop where
  alike : ∀ d d', P d d' → Alike d d'
  innermost : ∀ d d', P d d' → P d.innermost d'.innermost
  constructible : ∀ r r', P r r' → r.constructible C = true → r'.constructible C = true
  members : ∀ r r', P r r' →
    List.Forall₂ (fun m m' => m.1 = m'.1 ∧ P m.2 m'.2) (r.members C) (r'.members C)

variable {C : Catalog} {P : Descriptor → Descriptor → Prop} {d d' r r' : Descriptor}
  {found found' out : List Descriptor} {members members' : List (String × Descriptor)}

namespace Extraction

theorem entry_eq (named : r.name = r'.name)
    (h : List.Forall₂ (fun m m' => m.1 = m'.1 ∧ Alike m.2 m'.2) (r.members C) (r'.members C)) :
    entry C r = entry C r' := by
  have records : ∀ {d d' : Descriptor}, Alike d d' → d.innermost.isRecord = d'.innermost.isRecord :=
    fun alike => Bool.eq_iff_iff.mpr
      ⟨alike.innermost.isRecord, alike.symm.innermost.isRecord⟩
  have embedded : ∀ m m' : String × Descriptor, m.1 = m'.1 ∧ Alike m.2 m'.2 →
      (if m.2.innermost.isRecord then some m.2.innermost.name else none) =
        if m'.2.innermost.isRecord then some m'.2.innermost.name else none := by
    rintro m m' ⟨-, alike⟩
    rw [records alike, alike.innermost.name_eq]
  have needs_eq : needs C r = needs C r' := by
    have same := congrArg (List.filterMap id) (map_eq_map (h.imp embedded))
    rwa [List.filterMap_map, List.filterMap_map] at same
  rw [entry, entry, named, children_eq h, needs_eq]

end Extraction

namespace Discovery

theorem visit_coded {p : Primitive} (coded : p ≠ .decimal) (leaf : d.innermost = .primitive p)
    (budget : Nat) (found : List Descriptor) : visit C budget d found = .ok found := by
  rw [visit.eq_def]
  dsimp only
  rw [leaf]
  cases p with
  | decimal => exact absurd rfl coded
  | _ => rfl

variable {visit' : Descriptor → List Descriptor → Except Error (List Descriptor)}

theorem visitMembers_simulates
    (step : ∀ d d' found found' out, P d d' →
      found'.map (Extraction.entry C) = found.map (Extraction.entry C) → visit' d found = .ok out →
      ∃ out', visit' d' found' = .ok out' ∧
        out'.map (Extraction.entry C) = out.map (Extraction.entry C))
    (related : List.Forall₂ (fun m m' => m.1 = m'.1 ∧ P m.2 m'.2) members members')
    {owner : String} {seen : List String}
    (same : found'.map (Extraction.entry C) = found.map (Extraction.entry C))
    (h : visitMembers visit' owner seen members found = .ok out) :
    ∃ out', visitMembers visit' owner seen members' found' = .ok out' ∧
      out'.map (Extraction.entry C) = out.map (Extraction.entry C) := by
  induction related generalizing seen found found' with
  | nil =>
    rw [visitMembers] at h
    obtain rfl := Except.ok.inj h
    exact ⟨found', by rw [visitMembers], same⟩
  | @cons m m' members members' head tail ih =>
    obtain ⟨name, d⟩ := m
    obtain ⟨_, d'⟩ := m'
    obtain ⟨rfl, related⟩ := head
    rw [visitMembers] at h
    split at h
    · cases h
    · next unseen =>
      split at h
      · cases h
      · next between first =>
        obtain ⟨between', first', same'⟩ := step d d' found found' between related same first
        obtain ⟨out', rest, same''⟩ := ih same' h
        refine ⟨out', ?_, same''⟩
        rw [visitMembers, if_neg unseen, first']
        exact rest

/-- Related types are visited alike, after the same entries were met. -/
theorem visit_simulates (sim : Simulates C P) (budget : Nat) (related : P d d')
    (same : found'.map (Extraction.entry C) = found.map (Extraction.entry C))
    (h : visit C budget d found = .ok out) :
    ∃ out', visit C budget d' found' = .ok out' ∧
      out'.map (Extraction.entry C) = out.map (Extraction.entry C) := by
  have names : ∀ {found found' : List Descriptor},
      found'.map (Extraction.entry C) = found.map (Extraction.entry C) → ∀ {name : String},
      (∃ r ∈ found, r.name = name) → ∃ r ∈ found', r.name = name := by
    rintro found found' same _ ⟨r, mem, rfl⟩
    have mem' := List.mem_map_of_mem (f := Extraction.entry C) mem
    rw [← same] at mem'
    obtain ⟨r', hr', entry⟩ := List.mem_map.mp mem'
    exact ⟨r', hr', congrArg Ordering.Entry.name entry⟩
  induction budget using Nat.strongRecOn generalizing d d' found found' out with
  | _ budget ih =>
    have inner := sim.innermost d d' related
    have alike := sim.alike _ _ inner
    by_cases isRecord : d.innermost.isRecord = true
    · have isRecord' := alike.isRecord isRecord
      rcases visit_record isRecord h with ⟨rfl, known⟩ | ⟨new, constructible, n, rfl, visited⟩
      · exact ⟨found', visit_known isRecord' (alike.name_eq ▸ names same known), same⟩
      · have new' : ¬ ∃ r ∈ found', r.name = d'.innermost.name := fun known => by
          obtain ⟨r, mem, named⟩ := names same.symm known
          exact new r mem (named.trans alike.name_eq.symm)
        have members := sim.members _ _ inner
        have entry := Extraction.entry_eq alike.name_eq
          (members.imp fun _ _ both => ⟨both.1, sim.alike _ _ both.2⟩)
        rw [visit_new isRecord' new', if_pos (sim.constructible _ _ inner constructible),
          ← alike.name_eq]
        have step : ∀ d d' found found' out, P d d' →
            found'.map (Extraction.entry C) = found.map (Extraction.entry C) →
            visit C n d found = .ok out → ∃ out', visit C n d' found' = .ok out' ∧
              out'.map (Extraction.entry C) = out.map (Extraction.entry C) :=
          fun _ _ _ _ _ related same visited => ih n (Nat.lt_succ_self n) related same visited
        refine visitMembers_simulates step members ?_ visited
        rw [List.map_append, List.map_append, same, List.map_singleton, List.map_singleton, entry]
    · obtain ⟨rfl, p, coded, leaf⟩ := visit_leaf isRecord h
      rw [leaf] at alike
      refine ⟨found', visit_coded coded ?_ budget found', same⟩
      generalize d'.innermost = leaf' at alike
      cases alike with
      | primitive => rfl
      | record no => cases no

end Discovery

theorem Extraction.ofDescriptor_simulates {ext : Extraction} (sim : Simulates C P)
    (related : P d d') (h : Extraction.ofDescriptor C d = .ok ext) :
    ∃ ext', Extraction.ofDescriptor C d' = .ok ext' ∧ ext'.schema.types = ext.schema.types := by
  obtain ⟨records, found, h⟩ := bind_eq_ok.mp h
  obtain ⟨entries, ordered, h⟩ := bind_eq_ok.mp h
  obtain rfl := return_eq_ok.mp h
  obtain ⟨records', found', same⟩ := visit_simulates sim C.capacity related rfl found
  refine ⟨⟨⟨d'.name, Fingerprint.ofString d'.shortName, entries.map (·.node)⟩, records'⟩, ?_, rfl⟩
  rw [Extraction.ofDescriptor, Discovery.records, found']
  show Ordering.order (records'.map (Extraction.entry C)) >>= _ = _
  rw [same, ordered]
  rfl

end SchemaCodec
