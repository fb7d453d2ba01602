import Mathlib.Data.List.Perm.Basic
import SchemaCodec.Proofs.Outcome
import SchemaCodec.Proofs.Schema.Discovery
import SchemaCodec.Proofs.Value.Fields
import SchemaCodec.Schema.Extraction

/-! # Extracted schemas

An extracted schema lists one node for each record found, after the nodes of all records that its
members lead to. The children of a node are the members of its record.
-/

namespace SchemaCodec

namespace Node

def Distinct (node : Node) : Prop := (node.children.map name).Nodup

def Ordered (node : Node) : Prop :=
  ∃ names : List String, node.children.map name = names.map some ∧ names.Pairwise (· < ·)

theorem Ordered.distinct {node : Node} (h : node.Ordered) : node.Distinct := by
  obtain ⟨names, same, ascending⟩ := h
  unfold Distinct
  rw [same]
  refine List.Pairwise.map some (fun a b (less : a < b) (equal : some a = some b) => ?_) ascending
  obtain rfl := Option.some.inj equal
  exact String.lt_irrefl a less

end Node

namespace Ordering

variable {listed pending left out : List Entry}

theorem Entry.ready_iff {e : Entry} :
    e.ready listed = true ↔ ∀ need ∈ e.needs, ∃ en ∈ listed, en.name = need := by
  simp [Entry.ready]

/-- The entries can be listed in this order: the needs of each are listed before it. -/
def InOrder (listed : List Entry) : List Entry → Prop
  | [] => True
  | e :: rest => e.ready listed = true ∧ InOrder (listed ++ [e]) rest

theorem inOrder_append {xs ys : List Entry} :
    InOrder listed (xs ++ ys) ↔ InOrder listed xs ∧ InOrder (listed ++ xs) ys := by
  induction xs generalizing listed with
  | nil => simp [InOrder]
  | cons x xs ih =>
    rw [List.cons_append, InOrder, InOrder, ih, and_assoc, List.append_assoc]
    rfl

theorem inOrder_pass (listed pending : List Entry) :
    ∃ new, (pass listed pending).1 = listed ++ new ∧ InOrder listed new ∧
      (new ++ (pass listed pending).2).Perm pending := by
  induction pending generalizing listed with
  | nil => exact ⟨[], (List.append_nil _).symm, trivial, .nil⟩
  | cons e rest ih =>
    rw [pass]
    split
    · next ready =>
      obtain ⟨new, same, order, perm⟩ := ih (listed ++ [e])
      exact ⟨e :: new, by rw [same, List.append_assoc]; rfl, ⟨ready, order⟩, perm.cons e⟩
    · obtain ⟨new, same, order, perm⟩ := ih listed
      exact ⟨new, same, order, List.perm_middle.trans (perm.cons e)⟩

theorem inOrder_passes {n : Nat} (h : passes n listed pending = .ok out) :
    ∃ new, out = listed ++ new ∧ InOrder listed new ∧ new.Perm pending := by
  induction n generalizing listed pending with
  | zero =>
    cases pending with
    | nil =>
      obtain rfl := Except.ok.inj h
      exact ⟨[], (List.append_nil _).symm, trivial, .nil⟩
    | cons e rest => cases h
  | succ n ih =>
    cases pending with
    | nil =>
      obtain rfl := Except.ok.inj h
      exact ⟨[], (List.append_nil _).symm, trivial, .nil⟩
    | cons e rest =>
      rw [passes.eq_def] at h
      dsimp only at h
      split at h
      · cases h
      · obtain ⟨new, same, order, perm⟩ := inOrder_pass listed (e :: rest)
        obtain ⟨more, rfl, order', perm'⟩ := ih h
        rw [same] at order' ⊢
        refine ⟨new ++ more, List.append_assoc _ _ _, inOrder_append.mpr ⟨order, order'⟩, ?_⟩
        exact (perm'.append_left new).trans perm

/-- An order lists all the entries, each after its needs. -/
theorem inOrder_order (h : order pending = .ok out) : InOrder [] out ∧ out.Perm pending := by
  obtain ⟨new, rfl, order, perm⟩ := inOrder_passes h
  exact ⟨order, perm⟩

end Ordering

namespace Extraction

variable {C : Catalog} {record root : Descriptor} {ext : Extraction}

theorem mem_children {c : Node} (h : c ∈ children C record) :
    ∃ m ∈ record.members C, c = .member m.1 m.2.name := by
  obtain ⟨p, hp, rfl⟩ := List.mem_map.mp h
  obtain ⟨m, mem, rfl⟩ := List.mem_map.mp (Fields.mem_of_mem_ofList hp)
  exact ⟨m, mem, rfl⟩

theorem exists_child (unique : ((record.members C).map Prod.fst).Nodup)
    {m : String × Descriptor} (mem : m ∈ record.members C) :
    .member m.1 m.2.name ∈ children C record := by
  have names : ((record.members C).map fun m => (m.1, m.2.name)).map Prod.fst =
      (record.members C).map Prod.fst := by
    rw [List.map_map]
    rfl
  have mem' : (m.1, m.2.name) ∈ (record.members C).map fun m => (m.1, m.2.name) :=
    List.mem_map.mpr ⟨m, mem, rfl⟩
  have found := Fields.get?_ofList_of_mem (names ▸ unique) mem'
  exact List.mem_map.mpr ⟨_, Fields.mem_of_get? found, rfl⟩

theorem mem_needs {m : String × Descriptor} (mem : m ∈ record.members C)
    (isRecord : m.2.innermost.isRecord = true) : m.2.innermost.name ∈ needs C record :=
  List.mem_filterMap.mpr ⟨m, mem, if_pos isRecord⟩

theorem ordered_entry (C : Catalog) (record : Descriptor) : (entry C record).node.Ordered := by
  refine ⟨_, ?_, List.Pairwise.map Prod.fst (fun _ _ less => less) (Fields.sorted_ofList
    ((record.members C).map fun m => (m.1, m.2.name)))⟩
  rw [List.map_map]
  exact List.map_map

theorem ofDescriptor_eq_ok (h : ofDescriptor C root = .ok ext) :
    Discovery.records C root = .ok ext.records ∧ ext.schema.typeName = root.name ∧
      ∃ entries, ext.schema.types = entries.map (·.node) ∧ Ordering.InOrder [] entries ∧
        entries.Perm (ext.records.map (entry C)) := by
  obtain ⟨records, found, h⟩ := bind_eq_ok.mp h
  obtain ⟨entries, ordered, h⟩ := bind_eq_ok.mp h
  obtain rfl := return_eq_ok.mp h
  obtain ⟨order, perm⟩ := Ordering.inOrder_order ordered
  exact ⟨found, rfl, entries, rfl, order, perm⟩

theorem mem_types (h : ofDescriptor C root = .ok ext) {node : Node} :
    node ∈ ext.schema.types ↔ ∃ r ∈ ext.records, node = (entry C r).node := by
  obtain ⟨-, -, entries, types, -, perm⟩ := ofDescriptor_eq_ok h
  rw [types]
  constructor
  · intro mem
    obtain ⟨en, hen, rfl⟩ := List.mem_map.mp mem
    obtain ⟨r, hr, rfl⟩ := List.mem_map.mp (perm.mem_iff.mp hen)
    exact ⟨r, hr, rfl⟩
  · rintro ⟨r, hr, rfl⟩
    exact List.mem_map_of_mem (perm.mem_iff.mpr (List.mem_map_of_mem hr))

theorem nodup_types (h : ofDescriptor C root = .ok ext) :
    (ext.schema.types.map Node.typeName).Nodup := by
  obtain ⟨records, -, entries, types, -, perm⟩ := ofDescriptor_eq_ok h
  have names : (entries.map fun en => en.node.typeName).Perm
      (ext.records.map Descriptor.name) := by
    refine (perm.map _).trans (.of_eq ?_)
    rw [List.map_map]
    rfl
  rw [types, List.map_map]
  exact names.nodup_iff.mpr (Discovery.nodup_records records)

theorem ordered_types (h : ofDescriptor C root = .ok ext) :
    ∀ node ∈ ext.schema.types, node.Ordered := by
  intro node mem
  obtain ⟨record, -, rfl⟩ := (mem_types h).mp mem
  exact ordered_entry C record

end Extraction

end SchemaCodec
