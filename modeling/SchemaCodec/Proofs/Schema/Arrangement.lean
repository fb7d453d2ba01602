import SchemaCodec.Proofs.Registry.Synthesis
import SchemaCodec.Proofs.Schema.Documents
import SchemaCodec.Proofs.Schema.Extraction

/-! # How extracted schemas are arranged

An extracted schema lists records with distinct names, whose children refer to records before them.
So it can be sent as a document and made into types where the program is not known, but for the
records without members.
-/

namespace SchemaCodec

open Discovery

theorem Descriptor.exists_arrays (d : Descriptor) :
    ∃ levels, d.name = TypeName.arrays d.innermost.name levels := by
  induction d with
  | sequence container element ih =>
    obtain ⟨levels, same⟩ := ih
    exact ⟨levels + 1, congrArg TypeName.array same⟩
  | _ => exact ⟨0, rfl⟩

namespace Extraction

variable {C : Catalog} {root d record : Descriptor} {ext : Extraction} {found : List Descriptor}
  {nodes : List Node} {layout : Json.Layout}

theorem refers_of_covered (covered : Covered found d)
    (listed : d.innermost.isRecord = true →
      ∃ node ∈ nodes, node.typeName = d.innermost.name) : Schema.Refers nodes d.name := by
  obtain ⟨levels, same⟩ := d.exists_arrays
  refine ⟨d.innermost.name, levels, same, ?_⟩
  rcases covered with ⟨p, coded, inner⟩ | ⟨isRecord, -⟩
  · rw [inner]
    exact .inl ⟨p, coded, TypeName.ofSpelling?_name p⟩
  · obtain ⟨node, mem, named⟩ := listed isRecord
    exact .inr ⟨node, mem, named.symm⟩

theorem distinct_types (h : ofDescriptor C root = .ok ext)
    (wellFormed : ∀ r ∈ ext.records, TypeName.WellFormed r.name) : ext.schema.Distinct where
  wellFormed := by
    intro node mem
    obtain ⟨r, hr, rfl⟩ := (mem_types h).mp mem
    exact wellFormed r hr
  unique := nodup_types h

theorem ordered_children (h : ofDescriptor C root = .ok ext) {before after : List Node}
    {node child : Node} (split : ext.schema.types = before ++ node :: after)
    (mem : child ∈ node.children) : Schema.Refers before child.typeName := by
  obtain ⟨records, -, entries, types, order, perm⟩ := ofDescriptor_eq_ok h
  obtain ⟨front, back, rfl, rfl, rest⟩ := List.map_eq_append_iff.mp (types.symm.trans split)
  obtain ⟨en, others, rfl, rfl, -⟩ := List.map_eq_cons_iff.mp rest
  have ready := (Ordering.inOrder_append.mp order).2.1
  rw [List.nil_append] at ready
  have listed := perm.mem_iff.mp (List.mem_append_right _ List.mem_cons_self)
  obtain ⟨r, hr, rfl⟩ := List.mem_map.mp listed
  obtain ⟨closed, -⟩ := closed_records (hereditary_true C) trivial records
  obtain ⟨m, member, rfl⟩ := mem_children mem
  refine refers_of_covered ((closed r hr).2.2.covered m member) fun isRecord => ?_
  obtain ⟨en, hen, same⟩ := Ordering.Entry.ready_iff.mp ready _ (mem_needs member isRecord)
  exact ⟨en.node, List.mem_map_of_mem hen, same⟩

/-- An extracted schema is arranged like a well-formed one if its records have well-formed names. -/
theorem arranged_schema (h : ofDescriptor C root = .ok ext)
    (wellFormed : ∀ r ∈ ext.records, TypeName.WellFormed r.name) : ext.schema.Arranged where
  toDistinct := distinct_types h wellFormed
  named := by
    intro node mem
    obtain ⟨names, same, ascending⟩ := ordered_types h node mem
    refine ⟨names, same, ascending.imp ?_⟩
    rintro name _ less rfl
    exact String.lt_irrefl name less
  ordered := fun before node after split child mem => ordered_children h split mem
  rooted := by
    obtain ⟨records, named, -⟩ := ofDescriptor_eq_ok h
    obtain ⟨-, covered⟩ := closed_records (hereditary_true C) trivial records
    rw [named]
    refine refers_of_covered covered fun isRecord => ?_
    rcases covered with ⟨p, -, inner⟩ | ⟨-, r, hr, same⟩
    · rw [inner] at isRecord
      cases isRecord
    · exact ⟨_, (mem_types h).mpr ⟨r, hr, rfl⟩, same⟩

theorem ofDocument_extracted (h : ofDescriptor C root = .ok ext) (spaced : layout.Spaced) :
    Schema.ofDocument (ext.schema.document layout) = .ok ext.schema := by
  have shallow : ext.schema.toJson.nesting ≤ 5 := by
    refine Schema.nesting_toJson_le fun node mem c hc => ?_
    obtain ⟨r, -, rfl⟩ := (mem_types h).mp mem
    obtain ⟨m, -, rfl⟩ := mem_children hc
    rfl
  rw [Schema.ofDocument_document spaced, if_pos (Nat.le_trans shallow (by decide))]

end Extraction

/-! ## Round trip -/

namespace Schema

/-- A schema is read back from its document in either layout if the document nests at most 127 arrays
and objects, as that of every extracted schema does, and it is refused if the document nests deeper. -/
theorem document_round_trip {layout : Json.Layout} (mem : layout ∈ [Json.Layout.compact, .pretty])
    (S : Schema) :
    Json.parse? (S.document layout) = some S.toJson ∧
      (S.toJson.nesting ≤ 127 → ofDocument (S.document layout) = .ok S) ∧
      (127 < S.toJson.nesting →
        ofDocument (S.document layout) = .error (.malformed .schemaDocument)) ∧
      ∀ C root ext, Extraction.ofDescriptor C root = .ok ext → ext.schema = S →
        ofDocument (S.document layout) = .ok S := by
  have spaced := Json.spaced_of_mem mem
  have read := ofDocument_document spaced S
  refine ⟨Json.parse?_render spaced S.plain_toJson, fun shallow => ?_, fun beyond => ?_, ?_⟩
  · exact read.trans (if_pos shallow)
  · exact read.trans (if_neg (Nat.not_le.mpr beyond))
  · rintro C root ext extracted rfl
    exact Extraction.ofDocument_extracted extracted spaced

def nested : Nat → Node
  | 0 => .member "\"\\\u0001" "𝄞"
  | levels + 1 => .mk none "𐀀" [nested levels]

def deep (levels : Nat) : Schema := ⟨"\u007f\n", -9223372036854775808, [nested levels]⟩

def recordless : Catalog := ⟨fun _ => ⟨[], true, .declared⟩, 1⟩

def point : Descriptor :=
  .built "Point" "Point" .declared [("x", .primitive (.scalar .int32))]

/-- One more level decides between a document that is read and one that is refused. -/
theorem document_round_trip_deep :
    (deep 62).toJson.nesting = 127 ∧ ofDocument ((deep 62).document .compact) = .ok (deep 62) ∧
      (deep 63).toJson.nesting = 129 ∧
        ofDocument ((deep 63).document .pretty) = .error (.malformed .schemaDocument) ∧
      ∃ ext, Extraction.ofDescriptor recordless point = .ok ext ∧
        ofDocument (ext.schema.document .pretty) = .ok ext.schema := by
  have limit : (deep 62).toJson.nesting = 127 := by decide +kernel
  have beyond : (deep 63).toJson.nesting = 129 := by decide +kernel
  have compact := document_round_trip List.mem_cons_self (deep 62)
  have pretty := document_round_trip (List.mem_cons_of_mem _ List.mem_cons_self)
  refine ⟨limit, compact.2.1 (Nat.le_of_eq limit), beyond, (pretty (deep 63)).2.2.1 (by omega),
    _, rfl, ?_⟩
  exact (pretty _).2.2.2 recordless point _ rfl rfl

end Schema

end SchemaCodec
