import SchemaCodec.Proofs.Registry.Growth
import SchemaCodec.Proofs.Schema.Hoisting

/-! # Resolving nodes with definitions inside

What stands inside a node matters only where its name is not known. So a node resolves like the flat
one once everything defined inside is known, and flat nodes resolve only if each has children that
refer to nodes before it.
-/

namespace SchemaCodec

open SchemaCodec.Action

namespace Registry

variable {r r' : Registry} {node child : Node} {children : List Node} {d : Descriptor}
  {name : String}

def Holds (r : Registry) (name : String) : Prop := ∃ d, r.resolved.get? name = some d

theorem Writes.holds (h : Writes r r') (held : r.Holds name) : r'.Holds name := by
  induction h with
  | refl => exact held
  | tail _ write ih =>
    obtain ⟨d, known⟩ := ih
    exact ⟨d, write.grown.resolved.get? known⟩

theorem ends_resolveNode_holds (node : Node) (r : Registry) :
    (resolveNode node).Ends r (fun _ r' => ∀ name, r.Holds name → r'.Holds name)
      fun _ r' => ∀ name, r.Holds name → r'.Holds name := by
  refine (writes_resolveNode node r .refl).mono ?_ ?_
  · exact fun _ _ done name held => done.1.holds held
  · exact fun _ _ done name held => done.1.holds held

theorem ends_resolveNode_held {Q : Descriptor → Registry → Prop} {R : Error → Registry → Prop}
    (held : r.resolved.get? node.typeName = some d) : (resolveNode node).Ends r Q R ↔ Q d r := by
  obtain ⟨name, typeName, children⟩ := node
  rw [resolveNode.eq_def, ends_recover]
  exact ends_resolve_known held

theorem ends_resolveChildren_reference {Q : List (String × Descriptor) → Registry → Prop}
    {R : Error → Registry → Prop} (owner : String)
    (held : ∀ c ∈ children, c.children ≠ [] → r.Holds c.typeName) :
    (resolveChildren owner children).Ends r Q R ↔
      (resolveChildren owner (children.map Node.reference)).Ends r Q R := by
  induction children generalizing r Q with
  | nil => rfl
  | cons child others ih =>
    obtain ⟨first, rest⟩ := List.forall_mem_cons.mp held
    rw [List.map_cons, resolveChildren, resolveChildren, show child.reference.name = child.name
      from rfl]
    cases child.name with
    | none => rfl
    | some name =>
      dsimp only
      have step : ∀ {Q : Descriptor → Registry → Prop},
          (resolveNode child).Ends r Q R ↔ (resolveNode child.reference).Ends r Q R := by
        intro Q
        by_cases childless : child.children = []
        · rw [Node.reference_eq childless]
        · obtain ⟨d, known⟩ := first childless
          have reference := @ends_resolveNode_held _ child.reference _ Q R known
          rw [ends_resolveNode_held known, reference]
      rw [ends_bind, ends_bind, ← step]
      refine ends_congr (ends_resolveNode_holds child r) (fun d r' kept => ?_) fun _ _ _ => Iff.rfl
      rw [ends_bind, ends_bind]
      exact ih fun c hc inhabited => kept _ (rest c hc inhabited)

theorem ends_resolveNode_flat {Q : Descriptor → Registry → Prop} {R : Error → Registry → Prop}
    (held : ∀ c ∈ node.children, c.children ≠ [] → r.Holds c.typeName) :
    (resolveNode node).Ends r Q R ↔ (resolveNode node.flat).Ends r Q R := by
  obtain ⟨name, typeName, _ | ⟨child, others⟩⟩ := node
  · rfl
  · show Ends (resolveNode (.mk name typeName (child :: others))) r Q R ↔
      Ends (resolveNode (.mk name typeName ((child :: others).map Node.reference))) r Q R
    rw [resolveNode.eq_def, resolveNode.eq_def, ends_recover, ends_recover]
    refine ends_congr (I := fun _ _ => True) (J := fun _ r' => ∀ name, r.Holds name → r'.Holds name)
      ?_ (fun _ _ _ => Iff.rfl) fun e r' kept => ?_
    · refine ((writes_resolve typeName) r .refl).mono (fun _ _ _ => trivial) ?_
      exact fun _ _ done name held => done.1.holds held
    · cases e with
      | typeNotFound =>
        show Ends (resolveChildren typeName (child :: others) >>= addSynthesized typeName) r' Q R ↔
          Ends (resolveChildren typeName ((child :: others).map Node.reference) >>=
            addSynthesized typeName) r' Q R
        rw [ends_bind, ends_bind]
        exact ends_resolveChildren_reference typeName fun c hc inhabited =>
          kept _ (held c hc inhabited)
      | _ => rfl

/-! ## Resolving flat nodes -/

variable {S : Schema} {nodes : List Node}

theorem ends_resolve_regular (h : Knows nodes r) (hS : S.Distinct) (sub : nodes ⊆ S.types)
    (regular : TypeName.Regular name) :
    (Registry.resolve name).Ends r (fun _ r' => Knows nodes r' ∧ Schema.Refers nodes name)
      fun _ _ => True := by
  by_cases refers : Schema.Refers nodes name
  · refine (ends_resolve h hS sub refers).mono ?_ fun _ _ no => no.elim
    exact fun d r' done => ⟨done.1, refers⟩
  · obtain ⟨base, levels, rfl, either⟩ := regular
    have unknown : ∀ levels d, r.resolved.get? (TypeName.arrays base levels) ≠ some d := by
      intro levels d known
      obtain ⟨base', levels', b, same, -, type⟩ := h.resolved _ d known
      have atomic : TypeName.Atomic base := by
        rcases either with ⟨p, -, spelled⟩ | wellFormed
        · exact TypeName.atomic_of_spelling spelled
        · exact wellFormed.toAtomic
      obtain ⟨rfl, -⟩ :=
        TypeName.arrays_inj atomic (Schema.atomic_of_refersBase hS sub type.refers) same
      exact refers ⟨base, _, rfl, type.refers⟩
    rcases either with ⟨p, coded, spelled⟩ | wellFormed
    · exact absurd ⟨base, levels, rfl, .inl ⟨p, coded, spelled⟩⟩ refers
    · have new := Option.eq_none_iff_forall_not_mem.mpr (unknown levels)
      rw [ends_resolve_new new (TypeName.splitArrays_arrays wellFormed.toAtomic levels)
        fun _ => h.plain base]
      have bare : r.resolved.get? base = none :=
        Option.eq_none_iff_forall_not_mem.mpr (unknown 0)
      have none_known : r.base? base = none := by
        unfold Registry.base?
        rw [bare, h.declared, wellFormed.foreign]
        rfl
      rw [none_known]
      trivial

theorem ends_resolveChildren_regular (h : Knows nodes r) (hS : S.Distinct) (sub : nodes ⊆ S.types)
    (owner : String) {references : List Node} (childless : ∀ c ∈ references, c.children = [])
    (regular : ∀ c ∈ references, TypeName.Regular c.typeName) :
    (resolveChildren owner references).Ends r
      (fun _ _ => (∀ c ∈ references, Schema.Refers nodes c.typeName) ∧
        ∃ names : List String, references.map Node.name = names.map some)
      fun _ _ => True := by
  induction references generalizing r with
  | nil =>
    rw [resolveChildren]
    exact ⟨List.forall_mem_nil _, [], rfl⟩
  | cons child others ih =>
    obtain ⟨first, rest⟩ := List.forall_mem_cons.mp regular
    obtain ⟨bare, bares⟩ := List.forall_mem_cons.mp childless
    rw [resolveChildren]
    split
    · trivial
    · next name named =>
      have step : (resolveNode child).Ends r
          (fun _ r' => Knows nodes r' ∧ Schema.Refers nodes child.typeName) fun _ _ => True := by
        obtain ⟨name, typeName, children⟩ := child
        obtain rfl : children = [] := bare
        rw [resolveNode.eq_def, ends_recover]
        refine (ends_resolve_regular h hS sub first).mono (fun _ _ done => done) fun e r' _ => ?_
        cases e <;> trivial
      rw [ends_bind]
      refine step.mono ?_ fun _ _ _ => trivial
      rintro d r' ⟨h', refers⟩
      rw [ends_bind]
      refine (ih h' bares rest).mono ?_ fun _ _ _ => trivial
      rintro members r'' ⟨all, names, labels⟩
      exact ⟨List.forall_mem_cons.mpr ⟨refers, all⟩, name :: names,
        by rw [List.map_cons, named, labels, List.map_cons]⟩

/-- A flat node that was not reached yet resolves only if it has children, all of which have names
and refer to the nodes before. -/
theorem ends_resolveNode_regular (h : Knows nodes r) (hS : S.Distinct)
    (sub : nodes ⊆ S.types) (mem : node ∈ S.types) (new : node ∉ nodes)
    (childless : ∀ c ∈ node.children, c.children = [])
    (regular : ∀ c ∈ node.children, TypeName.Regular c.typeName) :
    (resolveNode node).Ends r
      (fun _ r' => Knows (nodes ++ [node]) r' ∧ node.children ≠ [] ∧
        (∀ c ∈ node.children, Schema.Refers nodes c.typeName) ∧
        ∃ names : List String, node.children.map Node.name = names.map some)
      fun _ _ => True := by
  have missing := ends_resolve_missing h hS sub mem new
  by_cases empty : node.children = []
  · exact ends_resolveNode_childless empty missing trivial
  · have children := ends_resolveChildren_regular h hS sub node.typeName childless regular
    have needed : (resolveNode node).Ends r (fun _ _ =>
        (∀ c ∈ node.children, Schema.Refers nodes c.typeName) ∧
          ∃ names : List String, node.children.map Node.name = names.map some)
        fun _ _ => True := by
      apply ends_resolveNode_missing empty missing
      refine children.mono (fun members r' done => ?_) fun _ _ _ => trivial
      exact (keeps_trivial _ r' trivial).mono (fun _ _ _ => done) fun _ _ _ => trivial
    by_cases fine : (∀ c ∈ node.children, Schema.Refers nodes c.typeName) ∧
        ∃ names : List String, node.children.map Node.name = names.map some
    · obtain ⟨refers, names, named⟩ := fine
      refine (ends_resolveNode_new h hS sub mem new empty refers named).mono ?_
        fun _ _ no => no.elim
      exact fun d r' done => ⟨done.1, empty, refers, names, named⟩
    · exact needed.mono (fun _ _ done => absurd done fine) fun _ _ _ => trivial

end Registry

end SchemaCodec
