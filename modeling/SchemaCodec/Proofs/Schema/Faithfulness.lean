import SchemaCodec.Proofs.Schema.Completeness

/-! # Which records a schema describes

The walk over a type's graph keeps the first record that it meets under each name. So the schema
describes these records, and every other one as far as it has the definition of the first.
-/

namespace SchemaCodec

open Descriptor

/-- Visiting the types in turn, where records of some names were met before, meets these further
records: those whose names were not met yet, each before what its members lead to. -/
inductive Descriptor.Meets (C : Catalog) : List String → List Descriptor → List Descriptor → Prop

  | nil {known : List String} : Meets C known [] []

  | leaf {known : List String} {d : Descriptor} {rest new : List Descriptor} :
      d.innermost.isRecord = false → Meets C known rest new → Meets C known (d :: rest) new

  | known {known : List String} {d : Descriptor} {rest new : List Descriptor} :
      d.innermost.isRecord = true → d.innermost.name ∈ known → Meets C known rest new →
      Meets C known (d :: rest) new

  | first {known : List String} {d : Descriptor} {rest new : List Descriptor} :
      d.innermost.isRecord = true → d.innermost.name ∉ known →
      Meets C (known ++ [d.innermost.name]) ((d.innermost.members C).map Prod.snd ++ rest) new →
      Meets C known (d :: rest) (d.innermost :: new)

/-- The node lists the members of the record with the names of their types, in the order of the
members' names. -/
structure Node.Describes (C : Catalog) (node : Node) (r : Descriptor) : Prop where
  nameless : node.name = none
  named : node.typeName = r.name
  members : node.children.Perm ((r.members C).map fun m => .member m.1 m.2.name)
  ordered : node.Ordered

variable {C : Catalog} {root d r r' : Descriptor} {known : List String} {node : Node}
  {xs ys new more found found' : List Descriptor} {ext : Extraction}

theorem Descriptor.Meets.append (h : Meets C known xs new)
    (h' : Meets C (known ++ new.map Descriptor.name) ys more) :
    Meets C known (xs ++ ys) (new ++ more) := by
  induction h with
  | nil => simpa using h'
  | leaf leaf _ ih => exact .leaf leaf (ih h')
  | known isRecord old _ ih => exact .known isRecord old (ih h')
  | first isRecord new _ ih =>
    apply Meets.first isRecord new
    simpa using ih (by simpa using h')

theorem Descriptor.Meets.eq (h : Meets C known xs new) (h' : Meets C known xs more) :
    more = new := by
  induction h generalizing more with
  | nil =>
    cases h'
    rfl
  | leaf leaf _ ih =>
    cases h' with
    | leaf _ rest => exact ih rest
    | known isRecord _ _ => simp [leaf] at isRecord
    | first isRecord _ _ => simp [leaf] at isRecord
  | known isRecord old _ ih =>
    cases h' with
    | leaf leaf _ => simp [leaf] at isRecord
    | known _ _ rest => exact ih rest
    | first _ new _ => exact absurd old new
  | first isRecord new _ ih =>
    cases h' with
    | leaf leaf _ => simp [leaf] at isRecord
    | known _ old _ => exact absurd old new
    | first _ _ rest => exact congrArg _ (ih rest)

theorem Node.Describes.eq {node' : Node} (h : node.Describes C r) (h' : node'.Describes C r) :
    node = node' := by
  have ascending : ∀ {node : Node}, node.Ordered → node.children.Pairwise fun c c' =>
      ∃ name name' : String, c.name = some name ∧ c'.name = some name' ∧ name < name' := by
    rintro node ⟨names, same, ascending⟩
    have pairs : (node.children.map Node.name).Pairwise fun n n' =>
        ∃ name name' : String, n = some name ∧ n' = some name' ∧ name < name' := by
      rw [same]
      exact List.pairwise_map.mpr (ascending.imp fun less => ⟨_, _, rfl, rfl, less⟩)
    exact List.pairwise_map.mp pairs
  have children : node.children = node'.children := by
    refine (h.members.trans h'.members.symm).eq_of_pairwise ?_ (ascending h.ordered)
      (ascending h'.ordered)
    rintro c c' - - ⟨n, n', own, own', less⟩ ⟨m', m, again', again, more⟩
    obtain rfl := Option.some.inj (own.symm.trans again)
    obtain rfl := Option.some.inj (own'.symm.trans again')
    exact absurd (String.lt_trans less more) (String.lt_irrefl _)
  have named := h.named.trans h'.named.symm
  have nameless := h.nameless.trans h'.nameless.symm
  cases node
  cases node'
  obtain rfl : _ = _ := nameless
  obtain rfl : _ = _ := named
  obtain rfl : _ = _ := children
  rfl

theorem Node.Describes.of_definition (h : node.Describes C r) (same : SameDefinition C r r')
    (named : r.name = r'.name) : node.Describes C r' := by
  refine ⟨h.nameless, h.named.trans named, ?_, h.ordered⟩
  have members : ((r.members C).map fun m => Node.member m.1 m.2.name) =
      (r'.members C).map fun m => Node.member m.1 m.2.name :=
    map_eq_map (same.members.imp fun m m' both => congrArg₂ Node.member both.1 both.2.name_eq)
  rw [← members]
  exact h.members

namespace Discovery

theorem meets_members {visit : Descriptor → List Descriptor → Except Error (List Descriptor)}
    {owner : String} {seen : List String} {members : List (String × Descriptor)}
    (visited : ∀ d found found', visit d found = .ok found' →
      ∃ new, found' = found ++ new ∧ Meets C (found.map Descriptor.name) [d] new)
    (h : visitMembers visit owner seen members found = .ok found') :
    ∃ new, found' = found ++ new ∧
      Meets C (found.map Descriptor.name) (members.map Prod.snd) new := by
  induction members generalizing seen found with
  | nil =>
    rw [visitMembers] at h
    obtain rfl := Except.ok.inj h
    exact ⟨[], (List.append_nil _).symm, .nil⟩
  | cons m rest ih =>
    obtain ⟨name, d⟩ := m
    rw [visitMembers] at h
    split at h
    · cases h
    · split at h
      · cases h
      · next between first =>
        obtain ⟨new, rfl, head⟩ := visited d found between first
        obtain ⟨more, rfl, tail⟩ := ih h
        refine ⟨new ++ more, List.append_assoc _ _ _, head.append ?_⟩
        rwa [List.map_append] at tail

/-- A visit notes the records that it meets, in their order. -/
theorem meets_visit (budget : Nat) (h : visit C budget d found = .ok found') :
    ∃ new, found' = found ++ new ∧ Meets C (found.map Descriptor.name) [d] new := by
  induction budget using Nat.strongRecOn generalizing d found found' with
  | _ budget ih =>
    by_cases isRecord : d.innermost.isRecord = true
    · rcases visit_record isRecord h with ⟨rfl, r, mem, same⟩ | ⟨unknown, -, n, rfl, members⟩
      · refine ⟨[], (List.append_nil _).symm, .known isRecord ?_ .nil⟩
        exact List.mem_map.mpr ⟨r, mem, same⟩
      · obtain ⟨new, rfl, inside⟩ :=
          meets_members (fun d found found' => ih n (Nat.lt_succ_self n)) members
        refine ⟨d.innermost :: new, by simp, .first isRecord ?_ ?_⟩
        · rintro again
          obtain ⟨r, mem, same⟩ := List.mem_map.mp again
          exact unknown r mem same
        · simpa using inside
    · obtain ⟨rfl, -⟩ := visit_leaf isRecord h
      exact ⟨[], (List.append_nil _).symm, .leaf (by simpa using isRecord) .nil⟩

theorem meets_records (h : records C root = .ok found) : Meets C [] [root] found := by
  obtain ⟨new, rfl, meets⟩ := meets_visit C.capacity h
  exact meets

end Discovery

namespace Extraction

theorem describes_entry (unique : ((r.members C).map Prod.fst).Nodup) :
    (entry C r).node.Describes C r :=
  ⟨rfl, rfl, perm_children unique, ordered_entry C r⟩

/-- An extracted schema describes the first record that is met under each name, and no others. If
every name stands for one definition, it describes every record that the root leads to. -/
theorem describes_first_met (h : ofDescriptor C root = .ok ext) :
    (∃ met, Meets C [] [root] met ∧ (met.map Descriptor.name).Nodup ∧
      ∀ node, node ∈ ext.schema.types ↔ ∃ r ∈ met, node.Describes C r) ∧
    (ext.schema.types.map Node.typeName).Nodup ∧
    (Unambiguous C root → ∀ r, Reaches C root r → r.isRecord = true →
      ∃ node ∈ ext.schema.types, node.Describes C r) := by
  obtain ⟨records, -⟩ := ofDescriptor_eq_ok h
  obtain ⟨closed, -⟩ := Discovery.closed_records (Discovery.hereditary_true C) trivial records
  have own : ∀ r ∈ ext.records, (entry C r).node.Describes C r :=
    fun r hr => describes_entry (closed r hr).2.2.unique
  refine ⟨⟨ext.records, Discovery.meets_records records, Discovery.nodup_records records, ?_⟩,
    nodup_types h, ?_⟩
  · intro node
    rw [mem_types h]
    constructor
    · rintro ⟨r, hr, rfl⟩
      exact ⟨r, hr, own r hr⟩
    · rintro ⟨r, hr, describes⟩
      exact ⟨r, hr, describes.eq (own r hr)⟩
  · intro unambiguous r reached isRecord
    obtain ⟨found, covered⟩ := Discovery.reached_records unambiguous records
    obtain ⟨r', hr', same⟩ := (covered r reached).exists_found isRecord
    obtain ⟨isRecord', reached', -⟩ := found r' hr'
    have definition := unambiguous r' r reached' reached isRecord' isRecord same
    exact ⟨_, (mem_types h).mpr ⟨r', hr', rfl⟩, (own r' hr').of_definition definition same⟩

def twins : Catalog where
  declaration := fun id =>
    if id.short = "Both" then
      ⟨[⟨"second", .record ⟨"dup.Name", "Second", 0⟩ [], fun _ => .record [.text ""], false⟩,
        ⟨"first", .record ⟨"dup.Name", "First", 0⟩ [],
          fun _ => .record [.scalar .int32 0], false⟩], true, .declared⟩
    else if id.short = "First" then
      ⟨[⟨"x", .scalar .int32, fun _ => .scalar .int32 0, false⟩], true, .declared⟩
    else ⟨[⟨"y", .string, fun _ => .text "", false⟩], true, .declared⟩
  capacity := 3

def both : MessageType := .record ⟨"dup.Both", "Both", 0⟩ []

/-- The record that is met first is described. -/
theorem describes_first_met_both : ∃ ext met,
    ofDescriptor twins both.describe = .ok ext ∧ Meets twins [] [both.describe] met ∧
    met.map Descriptor.shortName = ["Both", "Second"] ∧
    ∀ node, node ∈ ext.schema.types ↔ ∃ r ∈ met, node.Describes twins r := by
  obtain ⟨⟨met, meets, -, listed⟩, -⟩ :=
    @describes_first_met twins both.describe _ rfl
  have only := @Discovery.meets_records twins both.describe _ rfl
  exact ⟨_, met, rfl, meets, by rw [only.eq meets]; rfl, listed⟩

/-- Both records of the name are accepted, and the one that is met later is not described. -/
theorem accepts_twins : ∃ ext r r', ofDescriptor twins both.describe = .ok ext ∧
    Reaches twins both.describe r ∧ Reaches twins both.describe r' ∧ r.isRecord = true ∧
    r'.isRecord = true ∧ r.name = r'.name ∧
    r.members twins = [("y", .primitive .string)] ∧
    r'.members twins = [("x", .primitive (.scalar .int32))] ∧
    ∀ node ∈ ext.schema.types, node.typeName = r'.name →
      ¬ node.children.Perm ((r'.members twins).map fun m => .member m.1 m.2.name) := by
  refine ⟨_, (MessageType.record ⟨"dup.Name", "Second", 0⟩ []).describe,
    (MessageType.record ⟨"dup.Name", "First", 0⟩ []).describe, rfl, ?_, ?_, rfl, rfl, rfl, rfl, rfl,
    ?_⟩
  · exact Reaches.root.member (m := ("second", _)) List.mem_cons_self
  · exact Reaches.root.member (m := ("first", _)) (List.mem_cons_of_mem _ List.mem_cons_self)
  · intro node mem named same
    rcases List.mem_cons.mp mem with rfl | mem
    · have other : Node.member "y" "String" ∉ [Node.member "x" "Int32"] := by decide
      exact other (same.mem_iff.mp List.mem_cons_self)
    · obtain rfl := List.mem_singleton.mp mem
      exact absurd named (by decide)

end Extraction

end SchemaCodec
