import SchemaCodec.Proofs.Engine.Rejection
import SchemaCodec.Proofs.Engine.SchemaCompilation
import SchemaCodec.Proofs.Registry.Restoration
import SchemaCodec.Proofs.TypeName.Balance

/-! # Extracting what was made from a schema

An engine that knows no types makes them from an extracted schema, and what it extracts from the
type of the root is that schema again, with the nodes in some dependency order. Only the fingerprint
may differ: it is taken from the unqualified name, which the receiver knows from the canonical name
alone.
-/

namespace SchemaCodec

open SchemaCodec.Action Descriptor

namespace Engine

variable {C K : Catalog} {limits : Limits} {root d : Descriptor} {ext : Extraction} {e : Engine}
  {nodes : List Node}

section Extracted

variable (h : Extraction.ofDescriptor C root = .ok ext)
  (wellFormed : ∀ r ∈ ext.records, TypeName.WellFormed r.name)
  (inhabited : ∀ node ∈ ext.schema.types, node.children ≠ [])

include h wellFormed inhabited

theorem ends_resolveNodes_made {rest : List Node} (split : ext.schema.types = nodes ++ rest)
    (known : e.registry.Restores nodes) :
    (Action.traverse resolveNode rest).Ends e
      (fun _ e' => e'.registry.Restores ext.schema.types) fun _ _ => False := by
  have hS := Extraction.arranged_schema h wellFormed
  induction rest generalizing nodes e with
  | nil =>
    rw [List.append_nil] at split
    exact split ▸ known
  | cons node rest ih =>
    obtain ⟨mem, sub, apart⟩ := apart_of_listed hS.toDistinct split
    have new : node ∉ nodes := fun old => apart node old rfl
    have nameless : node.name = none := by
      obtain ⟨r, -, rfl⟩ := (Extraction.mem_types h).mp mem
      rfl
    obtain ⟨names, named, -⟩ := hS.named node mem
    rw [Action.traverse, ends_bind, resolveNode, ends_resolving]
    refine (Registry.ends_resolveNode_made known hS.toDistinct sub mem new nameless
      (inhabited node mem) named fun c hc => Extraction.references h wellFormed split hc).mono ?_
        fun _ _ no => no
    intro _ r known'
    rw [ends_bind]
    rw [List.append_cons] at split
    exact ih split known'

theorem ends_resolveSchema_made : (resolveSchema ext.schema).Ends (fresh K limits)
    (fun d _ => d.MadeFrom ext.schema.types ∧ d.name = root.name) fun _ _ => False := by
  have hS := Extraction.arranged_schema h wellFormed
  obtain ⟨records, named, -⟩ := Extraction.ofDescriptor_eq_ok h
  have covered := (Discovery.closed_records (Discovery.hereditary_true C) trivial records).2
  have canonical := Extraction.canonical_of_covered covered wellFormed
  unfold resolveSchema
  rw [ends_bind]
  refine (ends_resolveNodes_made h wellFormed inhabited (List.nil_append _).symm
    Registry.restores_empty).mono ?_ fun _ _ no => no
  intro _ e known
  rw [resolve, ends_resolving]
  refine (Registry.ends_resolve_made known hS.toDistinct (List.Subset.refl _) hS.rooted
    (named.symm ▸ canonical)).mono ?_ fun _ _ no => no
  rintro d r ⟨-, made, own⟩
  exact ⟨made, own.trans named⟩

end Extracted

/-- On a new engine, the schema of a type resolves, and the schema of what it resolves to has the
same root and the same nodes, still in dependency order; its fingerprint is that of the unqualified
part of the canonical name. -/
theorem ends_extract_resolved (unambiguous : Unambiguous C root)
    (h : Extraction.ofDescriptor C root = .ok ext)
    (wellFormed : ∀ r ∈ ext.records, TypeName.WellFormed r.name)
    (inhabited : ∀ node ∈ ext.schema.types, node.children ≠ [])
    (fits : ext.schema.types.length ≤ K.capacity) :
    (resolveSchema ext.schema >>= extract).Ends (fresh K limits)
      (fun S _ => S.WellFormed ∧ S.typeName = ext.schema.typeName ∧
        S.types.Perm ext.schema.types ∧
        S.fingerprint = Fingerprint.ofString (TypeName.short root.name))
      fun _ _ => False := by
  have hS := Extraction.arranged_schema h wellFormed
  rw [ends_bind]
  have kept := writes_resolveSchema ext.schema (fresh K limits) .refl
  have resolves : (resolveSchema ext.schema).Ends (fresh K limits) _ _ :=
    ends_resolveSchema_made h wellFormed inhabited
  refine (resolves.and kept).mono ?_ fun _ _ no => no.1
  rintro d e ⟨⟨made, own⟩, writes, -⟩
  have catalog_eq : e.catalog = K := writes.catalog_eq
  obtain ⟨ext', extracted, same⟩ :=
    Extraction.exists_reextracted unambiguous h wellFormed made own fits
  have ends := ends_extract_eq d e
  rw [catalog_eq] at ends
  refine ends.mono ?_ ?_
  · rintro S e' ⟨_, again, rfl⟩
    obtain rfl := Except.ok.inj (extracted.symm.trans again)
    have records : ∀ r ∈ ext'.records, TypeName.WellFormed r.name := by
      intro r hr
      obtain ⟨isRecord, listed, -⟩ := (Discovery.closed_records
        (hereditary_madeFrom K _) made (Extraction.ofDescriptor_eq_ok extracted).1).1 r hr
      exact listed.wellFormed hS.toDistinct isRecord
    refine ⟨?_, ?_, same, ?_⟩
    · apply (Extraction.arranged_schema extracted records).wellFormed_of_inhabited
      exact fun node mem => inhabited node (same.mem_iff.mp mem)
    · rw [(Extraction.ofDescriptor_eq_ok extracted).2.1, (Extraction.ofDescriptor_eq_ok h).2.1, own]
    · rw [Extraction.fingerprint_eq extracted, made.shortName_eq hS.toDistinct, own]
  · rintro err e' ⟨failed, -⟩
    cases failed.symm.trans extracted

/-- A new engine makes types from a schema that was extracted where every name of a record stands
for one definition and every record has members. What it extracts from the type of the root is the
schema again: the same root and the same nodes with the same children, each after all that it
embeds. The records are no more than the engine's own catalogue allows for. -/
theorem synthesis_undoes_extraction (unambiguous : Unambiguous C root)
    (h : Extraction.ofDescriptor C root = .ok ext)
    (wellFormed : ∀ r ∈ ext.records, TypeName.WellFormed r.name)
    (inhabited : ∀ r ∈ ext.records, r.members C ≠ [])
    (fits : ext.records.length ≤ K.capacity) :
    ∃ d S, (resolveSchema ext.schema (fresh K limits)).result = .ok d ∧
      (extract d (resolveSchema ext.schema (fresh K limits)).state).result = .ok S ∧
      S.typeName = ext.schema.typeName ∧ S.types.Perm ext.schema.types ∧
      ∀ before node after, S.types = before ++ node :: after →
        ∀ child ∈ node.children, Schema.Refers before child.typeName := by
  have run : (resolveSchema ext.schema >>= extract).Ends (fresh K limits) _ _ :=
    ends_extract_resolved unambiguous h wellFormed (Extraction.inhabited_types h inhabited)
      (Extraction.length_types h ▸ fits)
  obtain ⟨d, resolved, ends⟩ := (ends_bind.mp run).result
  obtain ⟨S, extracted, arranged, root_eq, same, -⟩ := ends.result
  exact ⟨d, S, resolved, extracted, root_eq, same, arranged.ordered⟩

def label : MessageType := .record ⟨"shop::Label", "Label", 0⟩ []

def crate : MessageType := .record ⟨"shop::Crate", "Crate", 0⟩ [label]

def crates : Catalog where
  declaration := fun id =>
    if id.base = "shop::Label" then ⟨[⟨"text", .string, fun _ => .text "", false⟩], true, .declared⟩
    else ⟨[⟨"rows", .sequence .deque (.sequence .vector (.parameter 0)), fun _ => .items [], false⟩,
      ⟨"first", .parameter 0, fun args => args[0]?.getD .placeholder, false⟩], true, .declared⟩
  capacity := 2

theorem unambiguous_crate : Unambiguous crates crate.describe :=
  unambiguous_of_known [crate, label, .sequence .deque (.sequence .vector label),
    .sequence .vector label, .string] (by decide) (by decide) (by decide)

theorem wellFormed_crates : ∀ name ∈ ["shop::Crate<shop::Label>", "shop::Label", "g.Box<Int32>"],
    TypeName.WellFormed name :=
  TypeName.wellFormed_of_balanced (by decide)

/-- A crate of labels comes back with both of its nodes. -/
theorem synthesis_undoes_extraction_crate : ∃ ext d S,
    Extraction.ofDescriptor crates crate.describe = .ok ext ∧
    ext.schema.types.map Node.typeName = ["shop::Label", "shop::Crate<shop::Label>"] ∧
    (resolveSchema ext.schema (fresh crates .standard)).result = .ok d ∧
    (extract d (resolveSchema ext.schema (fresh crates .standard)).state).result = .ok S ∧
    S.types.Perm ext.schema.types := by
  obtain ⟨d, S, resolved, extracted, -, same, -⟩ :=
    @synthesis_undoes_extraction crates crates .standard crate.describe _ unambiguous_crate rfl
    (fun r hr => wellFormed_crates r.name (by revert r; decide)) (by decide) (by decide)
  exact ⟨_, d, S, rfl, by decide, resolved, extracted, same⟩

end Engine

end SchemaCodec
