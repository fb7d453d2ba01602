import SchemaCodec.Proofs.Action
import SchemaCodec.Proofs.Cache
import SchemaCodec.Registry.Synthesis

/-! # How names resolve

Names that apply no generic definition: a resolved name is found again, and any other name has the
type of its base under its marks of sequences, or it is missing.
-/

namespace SchemaCodec.Registry

open SchemaCodec.Action

variable {r : Registry} {name base : String} {levels : Nat} {d : Descriptor}
  {Q : Descriptor → Registry → Prop} {R : Error → Registry → Prop}

/-- What is known of a name without marks, apart from generic definitions. -/
def base? (r : Registry) (base : String) : Option Descriptor :=
  ((r.resolved.get? base).or (r.declared.get? base)).or
    ((Primitive.ofSpelling? base).map .primitive)

def note (r : Registry) (name : String) (d : Descriptor) : Registry :=
  { r with resolved := r.resolved.add name d }

theorem plain_of_generics (h : r.generics = .empty) (base : String) : r.application? base = none := by
  unfold application?
  rw [h]
  split <;> rfl

theorem ends_resolveBase {resolve : String → Action Registry Descriptor}
    {Q : Option Descriptor → Registry → Prop}
    (plain : (r.resolved.get? base).or (r.declared.get? base) = none →
      r.application? base = none) :
    (resolveBase resolve base).Ends r Q R ↔ Q (r.base? base) r := by
  unfold resolveBase
  rw [ends_bind, ends_get, base?]
  cases known : (r.resolved.get? base).or (r.declared.get? base) with
  | some d => rfl
  | none =>
    rw [plain known]
    rfl

theorem ends_resolve_known (known : r.resolved.get? name = some d) :
    (Registry.resolve name).Ends r Q R ↔ Q d r := by
  show (resolveWithin (9999 + 1) [] name).Ends r Q R ↔ _
  unfold resolveWithin
  rw [ends_bind, ends_get, known]
  rfl

theorem ends_resolve_new (new : r.resolved.get? name = none)
    (split : TypeName.splitArrays name = (base, levels))
    (plain : (r.resolved.get? base).or (r.declared.get? base) = none →
      r.application? base = none) :
    (Registry.resolve name).Ends r Q R ↔
      match r.base? base with
      | none => R (.typeNotFound name) r
      | some d => Q (d.arrays levels) (r.note name (d.arrays levels)) := by
  show (resolveWithin (9999 + 1) [] name).Ends r Q R ↔ _
  unfold resolveWithin
  rw [ends_bind, ends_get, new]
  dsimp only
  rw [if_neg List.not_mem_nil, split]
  dsimp only
  rw [ends_bind, ends_resolveBase plain]
  cases r.base? base with
  | none => rfl
  | some d =>
    dsimp only
    rw [remember, ends_bind, ends_get, ends_bind, ends_modify, Cache.getOr, new]
    rfl

theorem ends_resolveNode {node : Node}
    (h : (Registry.resolve node.typeName).Ends r Q fun _ _ => False) :
    (resolveNode node).Ends r Q R := by
  obtain ⟨name, typeName, children⟩ := node
  rw [resolveNode.eq_def, ends_recover]
  exact h.mono (fun _ _ hd => hd) fun _ _ no => no.elim

theorem ends_resolveNode_missing {node : Node} (children : node.children ≠ [])
    (missing : (Registry.resolve node.typeName).Ends r (fun _ _ => False)
      fun e r' => e = .typeNotFound node.typeName ∧ r' = r)
    (h : (resolveChildren node.typeName node.children).Ends r
      (fun members r' => (addSynthesized node.typeName members).Ends r' Q R) R) :
    (resolveNode node).Ends r Q R := by
  obtain ⟨name, typeName, _ | ⟨child, others⟩⟩ := node
  · exact absurd rfl children
  · rw [resolveNode.eq_def, ends_recover]
    refine missing.mono (fun _ _ no => no.elim) ?_
    rintro _ _ ⟨rfl, rfl⟩
    exact ends_bind.mpr h

theorem ends_resolveNode_childless {node : Node} (childless : node.children = [])
    (missing : (Registry.resolve node.typeName).Ends r (fun _ _ => False)
      fun e r' => e = .typeNotFound node.typeName ∧ r' = r)
    (h : R (.typeNotFound node.typeName) r) : (resolveNode node).Ends r Q R := by
  obtain ⟨name, typeName, _ | ⟨child, others⟩⟩ := node
  · rw [resolveNode.eq_def, ends_recover]
    refine missing.mono (fun _ _ no => no.elim) ?_
    rintro _ _ ⟨rfl, rfl⟩
    exact h
  · cases childless

theorem ends_addSynthesized {typeName : String} {members : List (String × Descriptor)}
    (new : r.resolved.get? typeName = none) :
    (addSynthesized typeName members).Ends r Q R ↔
      Q (.built typeName (TypeName.short typeName) .synthesized members)
        { r.note typeName (.built typeName (TypeName.short typeName) .synthesized members) with
          synthesized := r.synthesized + 1 } := by
  unfold addSynthesized
  rw [ends_bind, ends_get, new]
  rfl

theorem keeps_resolveChildren {I : Registry → Prop} {R : Error → Prop} {P : Descriptor → Prop}
    (unnamed : ∀ owner, R (.malformed (.unnamedChild owner))) {children : List Node}
    (each : ∀ c ∈ children, (resolveNode c).Keeps I R P) (owner : String) :
    (resolveChildren owner children).Keeps I R fun members => ∀ m ∈ members, P m.2 := by
  induction children with
  | nil =>
    rw [resolveChildren]
    exact keeps_pure (List.forall_mem_nil _)
  | cons child others ih =>
    obtain ⟨head, tail⟩ := List.forall_mem_cons.mp each
    rw [resolveChildren]
    split
    · exact keeps_fail (unnamed owner)
    · exact head.bind fun d made => (ih tail).bind fun members all =>
        keeps_pure (List.forall_mem_cons.mpr ⟨made, all⟩)

end SchemaCodec.Registry
