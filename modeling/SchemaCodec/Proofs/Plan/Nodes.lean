import SchemaCodec.Proofs.Plan.Choice

/-! # The nodes behind a plan

A record in a plan was compiled from a node of a schema, whose children are its members. What holds
of all nodes that are compiled is found again in every plan.
-/

namespace SchemaCodec

namespace Plan

variable {N : Node → Prop} {compiled : String → Option Plan} {d : Descriptor} {typeName : String}
  {plan : Plan}

/-- Every record in the plan was compiled from a node with `N`. -/
inductive CompiledFrom (N : Node → Prop) : Plan → Prop

  | scalar (k : Scalar) : CompiledFrom N (.scalar k)

  | text : CompiledFrom N .text

  | bulk (k : Scalar) : CompiledFrom N (.bulk k)

  | elements {element : Plan} : CompiledFrom N element → CompiledFrom N (.elements element)

  | record {node : Node} {fields : List (String × Plan)} : N node →
      List.Forall₂ (fun child field => child.name = some field.1) node.children fields →
      (∀ p ∈ fields, CompiledFrom N p.2) → CompiledFrom N (.record node.typeName fields)

theorem CompiledFrom.inner {name : String} {fields : List (String × Plan)}
    (h : (Plan.record name fields).CompiledFrom N) : ∀ p ∈ fields, p.2.CompiledFrom N := by
  cases h with
  | record _ _ inner => exact inner

theorem Chosen.compiledFrom (h : Chosen compiled d typeName plan)
    (linked : ∀ name p, compiled name = some p → CompiledFrom N p) : CompiledFrom N plan := by
  induction h with
  | scalar => exact .scalar _
  | text => exact .text
  | record _ _ _ _ found => exact linked _ _ found
  | bulk => exact .bulk _
  | elements _ _ _ ih => exact .elements ih

/-- The plan of a node was compiled from the node, and the plans that it embeds from theirs. -/
theorem compiledFrom_ofNode {C : Catalog} {node : Node}
    (linked : ∀ name p, compiled name = some p → CompiledFrom N p) (hn : N node)
    (h : ofNode compiled C node d = .ok plan) : CompiledFrom N plan := by
  obtain ⟨members, fields, -, rfl, all⟩ := ofNode_iff.mp h
  refine .record hn (all.imp ?_) ?_
  · rintro child field ⟨d, named, -⟩
    exact named
  · intro p hp
    obtain ⟨child, -, d, -, -, chosen⟩ := partner_left all hp
    exact chosen.compiledFrom linked

theorem names_eq {node : Node} {fields : List (String × Plan)}
    (h : List.Forall₂ (fun child field => child.name = some field.1) node.children fields) :
    node.children.map Node.name = (fields.map Prod.fst).map some := by
  rw [List.map_map]
  exact map_eq_map h

end Plan

end SchemaCodec
