import SchemaCodec.Proofs.Engine.Extraction
import SchemaCodec.Proofs.Registry.Resolution
import SchemaCodec.Proofs.Schema.Rearrangement

/-! # Registries that are told of a type graph

A registry that was told of types that a root leads to, and of nothing else, resolves the name of
every one of them to the type, under as many marks of sequences as the name has. Which record of the
name it holds does not matter.
-/

namespace SchemaCodec

open SchemaCodec.Action Descriptor

variable {C : Catalog} {root d b : Descriptor} {levels : Nat}

namespace Descriptor

theorem Clear.cases_leaf (clear : Clear C root) (reached : Reaches C root b)
    (leaf : b.innermost = b) : (∃ p, p ≠ .decimal ∧ b = .primitive p) ∨ b.isRecord = true := by
  cases b with
  | primitive p =>
    refine .inl ⟨p, ?_, rfl⟩
    rintro rfl
    exact clear _ reached .decimal
  | parameter i => exact absurd (.parameter i) (clear _ reached)
  | sequence container element => exact absurd leaf (Discovery.innermost_ne_sequence element _ _)
  | declared => exact .inr rfl
  | built => exact .inr rfl

theorem Clear.atomic (clear : Clear C root) (wellNamed : WellNamed C root)
    (reached : Reaches C root b) (leaf : b.innermost = b) : TypeName.Atomic b.name := by
  rcases clear.cases_leaf reached leaf with ⟨p, -, rfl⟩ | isRecord
  · exact TypeName.atomic_name p
  · exact (wellNamed b reached isRecord).toAtomic

theorem Clear.twin_of_name_eq (clear : Clear C root) (wellNamed : WellNamed C root)
    (reached : Reaches C root b) (leaf : b.innermost = b) (reached' : Reaches C root d)
    (same : d.name = b.name) : Twin d b := by
  have atomic := clear.atomic wellNamed reached leaf
  have leaf' : d.innermost = d := by
    cases d with
    | sequence container element => exact absurd same.symm (atomic.ne_array _)
    | _ => rfl
  rcases clear.cases_leaf reached leaf with ⟨p, -, rfl⟩ | isRecord <;>
    rcases clear.cases_leaf reached' leaf' with ⟨q, -, rfl⟩ | isRecord'
  · have spelled := TypeName.ofSpelling?_name q
    rw [show q.name = p.name from same, TypeName.ofSpelling?_name] at spelled
    rw [Option.some.inj spelled]
    exact .refl _
  · exact absurd same ((wellNamed d reached' isRecord').ne_name p)
  · exact absurd same.symm ((wellNamed b reached isRecord).ne_name q)
  · exact .record isRecord' isRecord same

end Descriptor

namespace Registry

/-- Whatever is known is a type that the root leads to: it was declared under its own name, or it was
resolved with the marks of sequences that the name has. -/
structure Acquainted (C : Catalog) (root : Descriptor) (r : Registry) : Prop where
  generics : r.generics = .empty
  declared : ∀ name d, r.declared.get? name = some d → Reaches C root d ∧ d.name = name
  resolved : ∀ name d, r.resolved.get? name = some d → ∃ base levels, Reaches C root base ∧
    TypeName.Atomic base.name ∧ name = TypeName.arrays base.name levels ∧ d = base.arrays levels

variable {r : Registry}

theorem acquainted_empty (C : Catalog) (root : Descriptor) : Acquainted C root empty :=
  ⟨rfl, (fun _ _ no => nomatch no), fun _ _ no => nomatch no⟩

theorem Acquainted.declare (h : Acquainted C root r) (reached : Reaches C root d) :
    Acquainted C root { r with declared := r.declared.add d.name d } := by
  refine ⟨h.generics, fun name d' known => ?_, h.resolved⟩
  rcases Cache.get?_add_eq_some known with held | ⟨-, rfl, rfl⟩
  · exact h.declared name d' held
  · exact ⟨reached, rfl⟩

theorem Acquainted.note (h : Acquainted C root r) (reached : Reaches C root b)
    (atomic : TypeName.Atomic b.name) (levels : Nat) :
    Acquainted C root (r.note (TypeName.arrays b.name levels) (b.arrays levels)) := by
  refine ⟨h.generics, h.declared, fun name d known => ?_⟩
  rcases Cache.get?_add_eq_some known with held | ⟨-, rfl, rfl⟩
  · exact h.resolved name d held
  · exact ⟨b, levels, reached, atomic, rfl, rfl⟩

theorem Acquainted.base? (h : Acquainted C root r) (clear : Clear C root)
    (wellNamed : WellNamed C root) (reached : Reaches C root b) (leaf : b.innermost = b)
    (known : r.base? b.name = some d) :
    Reaches C root d ∧ d.name = b.name := by
  have atomic := clear.atomic wellNamed reached leaf
  rcases Option.or_eq_some_iff.mp known with held | ⟨-, primitive⟩
  · rcases Option.or_eq_some_iff.mp held with resolved | ⟨-, declared⟩
    · obtain ⟨base, levels, reached', atomic', same, rfl⟩ := h.resolved _ d resolved
      have unmarked : TypeName.arrays b.name 0 = TypeName.arrays base.name levels := same
      obtain ⟨named, rfl⟩ := TypeName.arrays_inj atomic atomic' unmarked
      exact ⟨reached', named.symm⟩
    · exact h.declared _ d declared
  · obtain ⟨p, spelled, rfl⟩ := Option.map_eq_some_iff.mp primitive
    rcases clear.cases_leaf reached leaf with ⟨q, -, rfl⟩ | isRecord
    · obtain rfl := Option.some.inj ((TypeName.ofSpelling?_name q).symm.trans spelled)
      exact ⟨reached, rfl⟩
    · cases (wellNamed b reached isRecord).foreign.symm.trans spelled

/-- The name of a reached type under marks of sequences resolves to arrays of the type; a record has
to be declared. -/
theorem Acquainted.ends_resolve (h : Acquainted C root r) (clear : Clear C root)
    (wellNamed : WellNamed C root) (reached : Reaches C root b) (leaf : b.innermost = b)
    (declared : b.isRecord = true → r.Declares b.name) (levels : Nat) :
    (Registry.resolve (TypeName.arrays b.name levels)).Ends r
      (fun d r' => Acquainted C root r' ∧ r'.declared = r.declared ∧
        ∃ base, Reaches C root base ∧ Twin base b ∧ d = base.arrays levels)
      fun _ _ => False := by
  have atomic := clear.atomic wellNamed reached leaf
  cases found : r.resolved.get? (TypeName.arrays b.name levels) with
  | some d =>
    obtain ⟨base, levels', reached', atomic', same, rfl⟩ := h.resolved _ d found
    obtain ⟨named, rfl⟩ := TypeName.arrays_inj atomic atomic' same
    rw [ends_resolve_known found]
    exact ⟨h, rfl, base, reached',
      clear.twin_of_name_eq wellNamed reached leaf reached' named.symm, rfl⟩
  | none =>
    rw [ends_resolve_new found (TypeName.splitArrays_arrays atomic levels) fun _ =>
      plain_of_generics h.generics b.name]
    cases known : r.base? b.name with
    | some base =>
      obtain ⟨reached', named⟩ := h.base? clear wellNamed reached leaf known
      have noted := h.note reached' (named.symm ▸ atomic) levels
      rw [named] at noted
      exact ⟨noted, rfl, base, reached',
        clear.twin_of_name_eq wellNamed reached leaf reached' named, rfl⟩
    | none =>
      obtain ⟨unknown, unspelled⟩ := Option.or_eq_none_iff.mp known
      rcases clear.cases_leaf reached leaf with ⟨p, -, rfl⟩ | isRecord
      · simp [Descriptor.name, TypeName.ofSpelling?_name] at unspelled
      · obtain ⟨d, held⟩ := declared isRecord
        cases (Option.or_eq_none_iff.mp unknown).2.symm.trans held

theorem Acquainted.ends_resolveNode (h : Acquainted C root r) (clear : Clear C root)
    (wellNamed : WellNamed C root) (reached : Reaches C root b) (isRecord : b.isRecord = true)
    (declared : r.Declares b.name)
    {node : Node} (named : node.typeName = b.name) :
    (resolveNode node).Ends r
      (fun d r' => Acquainted C root r' ∧ r'.declared = r.declared ∧
        Reaches C root d ∧ d.isRecord = true ∧ d.name = b.name)
      fun _ _ => False := by
  apply Registry.ends_resolveNode
  rw [named]
  have ends := h.ends_resolve clear wellNamed reached (innermost_of_isRecord isRecord)
    (fun _ => declared) 0
  refine ends.mono ?_ fun _ _ no => no
  rintro _ r' ⟨h', same, base, reached', twin, rfl⟩
  exact ⟨h', same, reached', twin.symm.alike.isRecord isRecord, twin.alike.name_eq⟩

end Registry

end SchemaCodec
