import SchemaCodec.Proofs.Schema.Ordering
import SchemaCodec.Proofs.Schema.Reachability
import SchemaCodec.Proofs.Text.ByteOrder

/-! # What extracted schemas list

An extracted schema lists the records that its root leads to, all of them and once each. Every
record comes after the ones that it embeds, so a root that is a record comes last.
-/

namespace SchemaCodec

open Relation Descriptor Discovery

variable {C : Catalog} {root r r' : Descriptor} {found : List Descriptor} {ext : Extraction}

/-- The nodes are those of the records that the root leads to, once each, with the members of the
record by the bytes of their names, and after the nodes of the records that it embeds. -/
structure Descriptor.Enumerates (C : Catalog) (root : Descriptor) (nodes : List Node) : Prop where
  unique : (nodes.map Node.typeName).Nodup
  complete : ∀ name, name ∈ nodes.map Node.typeName ↔
    ∃ r, Reaches C root r ∧ r.isRecord = true ∧ r.name = name
  members : ∀ node ∈ nodes, ∀ r, Reaches C root r → r.isRecord = true → r.name = node.typeName →
    node.children.Perm ((r.members C).map fun m => Node.member m.1 m.2.name)
  ascending : ∀ node ∈ nodes, ∃ names : List String,
    node.children.map Node.name = names.map some ∧
      names.Pairwise fun name other => Utf8.encode name < Utf8.encode other
  ordered : ∀ before node after, nodes = before ++ node :: after →
    ∀ r, Reaches C root r → r.isRecord = true → r.name = node.typeName →
      ∀ m ∈ r.members C, m.2.innermost.isRecord = true →
        m.2.innermost.name ∈ before.map Node.typeName
  last : root.innermost.isRecord = true →
    ∃ node, nodes.getLast? = some node ∧ node.typeName = root.innermost.name

namespace Discovery

theorem mem_names_of_definite (definite : Definite C root) (h : records C root = .ok found)
    {name : String} : name ∈ found.map Descriptor.name ↔
      ∃ r, Reaches C root r ∧ r.isRecord = true ∧ r.name = name := by
  obtain ⟨closed, covered⟩ := reached_of_definite definite h
  rw [List.mem_map]
  constructor
  · rintro ⟨r, mem, rfl⟩
    obtain ⟨isRecord, reached, -⟩ := closed r mem
    exact ⟨r, reached, isRecord, rfl⟩
  · rintro ⟨r, reached, isRecord, rfl⟩
    exact (covered r reached).exists_found isRecord

theorem mem_names (unambiguous : Unambiguous C root) (h : records C root = .ok found)
    {name : String} : name ∈ found.map Descriptor.name ↔
      ∃ r, Reaches C root r ∧ r.isRecord = true ∧ r.name = name :=
  mem_names_of_definite unambiguous.definite h

theorem needs_entries (definite : Definite C root) (h : records C root = .ok found) :
    Ordering.Needs (found.map (Extraction.entry C)) = Embeds C root := by
  obtain ⟨closed, covered⟩ := reached_of_definite definite h
  ext name other
  constructor
  · rintro ⟨_, mem, rfl, need⟩
    obtain ⟨r, hr, rfl⟩ := List.mem_map.mp mem
    obtain ⟨isRecord, reached, -⟩ := closed r hr
    exact (embeds_iff_needs definite reached isRecord).mpr need
  · rintro ⟨r, reached, rfl, m, mem, isRecord, rfl⟩
    obtain ⟨r', hr', same⟩ := (covered r reached).exists_found (isRecord_of_mem_members mem)
    obtain ⟨isRecord', reached', -⟩ := closed r' hr'
    refine ⟨_, List.mem_map_of_mem hr', same, ?_⟩
    apply (embeds_iff_needs definite reached' isRecord').mp
    exact ⟨r, reached, same.symm, m, mem, isRecord, rfl⟩

end Discovery

namespace Extraction

theorem children_eq
    (h : List.Forall₂ (fun m m' => m.1 = m'.1 ∧ Alike m.2 m'.2) (r.members C) (r'.members C)) :
    children C r = children C r' := by
  have members : (r.members C).map (fun m => (m.1, m.2.name)) =
      (r'.members C).map fun m => (m.1, m.2.name) :=
    map_eq_map (h.imp fun _ _ same => Prod.ext same.1 same.2.name_eq)
  exact congrArg (fun entries => (Fields.ofList entries).map fun p => Node.member p.1 p.2) members

theorem perm_children (unique : ((r.members C).map Prod.fst).Nodup) :
    (children C r).Perm ((r.members C).map fun m => Node.member m.1 m.2.name) := by
  have names : (((r.members C).map fun m => (m.1, m.2.name)).map Prod.fst).Nodup := by
    rwa [List.map_map]
  refine ((Fields.perm_ofList names).map fun p => Node.member p.1 p.2).trans ?_
  rw [List.map_map]
  rfl

theorem children_of_reaches (unambiguous : Unambiguous C root) (h : ofDescriptor C root = .ok ext)
    {node : Node} (mem : node ∈ ext.schema.types) (reached : Reaches C root r)
    (isRecord : r.isRecord = true) (named : r.name = node.typeName) :
    node.children.Perm ((r.members C).map fun m => Node.member m.1 m.2.name) := by
  obtain ⟨r', hr', rfl⟩ := (mem_types h).mp mem
  obtain ⟨closed, -⟩ := reached_records unambiguous (ofDescriptor_eq_ok h).1
  obtain ⟨isRecord', reached', closed'⟩ := closed r' hr'
  have definition := unambiguous r' r reached' reached isRecord' isRecord named.symm
  show (children C r').Perm _
  rw [children_eq definition.members]
  exact perm_children (definition.names_eq ▸ closed'.unique)

theorem exists_entries (unambiguous : Unambiguous C root) (h : ofDescriptor C root = .ok ext) :
    ∃ entries, ext.schema.types = entries.map (·.node) ∧ Ordering.InOrder [] entries ∧
      (entries.map Ordering.Entry.name).Nodup ∧ Ordering.Needs entries = Embeds C root := by
  obtain ⟨records, -, entries, types, order, perm⟩ := ofDescriptor_eq_ok h
  have unique := nodup_types h
  rw [types, List.map_map] at unique
  refine ⟨entries, types, order, unique, ?_⟩
  rw [← needs_entries unambiguous.definite records]
  ext name other
  simp only [Ordering.Needs, perm.mem_iff]

theorem mem_before (unambiguous : Unambiguous C root) (h : ofDescriptor C root = .ok ext)
    {before after : List Node} {node : Node} (split : ext.schema.types = before ++ node :: after)
    {name : String} (path : TransGen (Embeds C root) node.typeName name) :
    name ∈ before.map Node.typeName := by
  obtain ⟨entries, types, order, unique, needs⟩ := exists_entries unambiguous h
  obtain ⟨front, back, rfl, rfl, rest⟩ := List.map_eq_append_iff.mp (types.symm.trans split)
  obtain ⟨en, others, rfl, rfl, -⟩ := List.map_eq_cons_iff.mp rest
  obtain ⟨e, mem, same⟩ := Ordering.exists_before order unique rfl (needs ▸ path)
  exact List.mem_map.mpr ⟨e.node, List.mem_map_of_mem mem, same⟩

/-- The record at the root embeds all others, so nothing is listed after it. -/
theorem getLast_eq_root (unambiguous : Unambiguous C root) (h : ofDescriptor C root = .ok ext)
    {before after : List Node} {node : Node} (split : ext.schema.types = before ++ node :: after)
    (named : node.typeName = root.innermost.name) : after = [] := by
  apply List.eq_nil_iff_forall_not_mem.mpr
  intro later mem
  have listed : later ∈ ext.schema.types := by simp [split, mem]
  obtain ⟨r, hr, rfl⟩ := (mem_types h).mp listed
  obtain ⟨closed, -⟩ := reached_records unambiguous (ofDescriptor_eq_ok h).1
  obtain ⟨isRecord, reached, -⟩ := closed r hr
  have inner := innermost_of_isRecord isRecord
  obtain ⟨-, path⟩ := reached.embeds (inner.symm ▸ isRecord)
  rw [inner, ← named] at path
  have unique := nodup_types h
  rw [split, List.map_append, List.map_cons] at unique
  obtain ⟨-, tail, apart⟩ := List.nodup_append.mp unique
  have mem' : r.name ∈ after.map Node.typeName := List.mem_map.mpr ⟨_, mem, rfl⟩
  rcases ReflTransGen.cases_head_iff.mp path with same | ⟨next, step, rest⟩
  · exact (List.nodup_cons.mp tail).1 (same ▸ mem')
  · have before := mem_before unambiguous h split (TransGen.head' step rest)
    exact apart _ before _ (List.mem_cons_of_mem _ mem') rfl

/-- An extracted schema lists what its root leads to. -/
theorem enumerates_types (unambiguous : Unambiguous C root) (h : ofDescriptor C root = .ok ext) :
    root.Enumerates C ext.schema.types := by
  have found := (ofDescriptor_eq_ok h).1
  have listed : ∀ name, name ∈ ext.schema.types.map Node.typeName ↔
      ∃ r, Reaches C root r ∧ r.isRecord = true ∧ r.name = name := by
    intro name
    rw [← mem_names unambiguous found, List.mem_map, List.mem_map]
    simp only [mem_types h]
    constructor
    · rintro ⟨_, ⟨r, hr, rfl⟩, rfl⟩
      exact ⟨r, hr, rfl⟩
    · rintro ⟨r, hr, rfl⟩
      exact ⟨_, ⟨r, hr, rfl⟩, rfl⟩
  refine ⟨nodup_types h, listed, ?_, ?_, ?_, ?_⟩
  · intro node mem r reached isRecord named
    exact children_of_reaches unambiguous h mem reached isRecord named
  · intro node mem
    obtain ⟨names, same, ascending⟩ := ordered_types h node mem
    exact ⟨names, same, ascending.imp Utf8.encode_lt⟩
  · intro before node after split r reached isRecord named m mem inner
    apply mem_before unambiguous h split
    exact named ▸ .single ⟨r, reached, rfl, m, mem, inner, rfl⟩
  · intro isRecord
    have mem := (listed _).mpr ⟨root.innermost, reaches_innermost C root, isRecord, rfl⟩
    obtain ⟨node, mem, named⟩ := List.mem_map.mp mem
    obtain ⟨before, after, split⟩ := List.append_of_mem mem
    obtain rfl := getLast_eq_root unambiguous h split named
    exact ⟨node, by simp [split], named⟩

def dot : MessageType := .record ⟨"Dot", "Dot", 0⟩ []

def line : MessageType := .record ⟨"Line", "Line", 0⟩ []

def lines : Catalog where
  declaration := fun id =>
    if id.base = "Line" then
      ⟨[⟨"to", .sequence .vector (.sequence .deque dot), fun _ => .items [], false⟩,
        ⟨"from", dot, fun _ => .record [.scalar .int8 0], false⟩], true, .declared⟩
    else ⟨[⟨"x", .scalar .int8, fun _ => .scalar .int8 0, false⟩], true, .declared⟩
  capacity := 2

theorem record_of_reaches_line {d : Descriptor} (h : Reaches lines line.describe d)
    (isRecord : d.isRecord = true) : d = line.describe ∨ d = dot.describe := by
  have closed : d = line.describe ∨ d.innermost = dot.describe ∨
      d = .primitive (.scalar .int8) := by
    clear isRecord
    induction h with
    | root => exact .inl rfl
    | element _ ih =>
      rcases ih with no | inner | no
      · cases no
      · exact .inr (.inl inner)
      · cases no
    | member _ mem ih =>
      rcases ih with rfl | inner | rfl
      · rcases List.mem_cons.mp mem with rfl | mem
        · exact .inr (.inl rfl)
        · obtain rfl := List.mem_singleton.mp mem
          exact .inr (.inl rfl)
      · rw [innermost_of_isRecord (isRecord_of_mem_members mem)] at inner
        subst inner
        obtain rfl := List.mem_singleton.mp mem
        exact .inr (.inr rfl)
      · cases mem
  rcases closed with rfl | inner | rfl
  · exact .inl rfl
  · exact .inr (innermost_of_isRecord isRecord ▸ inner)
  · cases isRecord

/-- A line lists the dots in it and then itself. -/
theorem enumerates_types_line : ∃ ext, ofDescriptor lines line.describe = .ok ext ∧
    ext.schema.types.map Node.typeName = ["Dot", "Line"] ∧
    line.describe.Enumerates lines ext.schema.types := by
  refine ⟨_, rfl, rfl, enumerates_types (unambiguous_of_unique ?_) rfl⟩
  intro r r' reached reached' isRecord isRecord' same
  rcases record_of_reaches_line reached isRecord with rfl | rfl <;>
    rcases record_of_reaches_line reached' isRecord' with rfl | rfl
  · rfl
  · exact absurd same (by decide)
  · exact absurd same (by decide)
  · rfl

end Extraction

end SchemaCodec
