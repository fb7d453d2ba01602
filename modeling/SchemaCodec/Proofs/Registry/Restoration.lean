import SchemaCodec.Proofs.Schema.Restoration

/-! # Registries that restore records

A registry that resolves the nodes of a schema in turn, where children refer by canonical names,
holds nothing but types made from the nodes.
-/

namespace SchemaCodec

open SchemaCodec.Action

theorem Schema.HasType.name_eq {S : Schema} {nodes : List Node} {name : String} {d : Descriptor}
    (hS : S.Distinct) (sub : nodes ⊆ S.types) (h : HasType nodes name d)
    (canonical : TypeName.Canonical name) : d.name = name := by
  obtain ⟨base, levels, rfl, atomic, own⟩ := canonical
  obtain ⟨base', levels', b, same, rfl, type⟩ := h
  obtain ⟨rfl, rfl⟩ :=
    TypeName.arrays_inj atomic (Schema.atomic_of_refersBase hS sub type.refers) same
  rw [Descriptor.name_arrays]
  rcases type with ⟨p, -, spelled, rfl⟩ | ⟨node, -, -, -, named⟩
  · rw [own p spelled]
    rfl
  · rw [named]

namespace Registry

variable {S : Schema} {nodes : List Node} {r : Registry} {name : String} {d : Descriptor}

/-- The registry knows types of referred names only, all of them made from the nodes. -/
structure Restores (nodes : List Node) (r : Registry) : Prop extends Knows nodes r where
  made : ∀ name d, r.resolved.get? name = some d → d.MadeFrom nodes

theorem restores_empty : Restores [] .empty where
  declared := rfl
  generics := rfl
  synthesized := rfl
  resolved := fun _ _ no => by cases no
  listed := List.forall_mem_nil _
  made := fun _ _ no => by cases no

theorem Restores.base? (h : Restores nodes r) {base : String} (known : r.base? base = some d)
    (type : Schema.BaseType nodes base d) : d.MadeFrom nodes := by
  unfold Registry.base? at known
  rw [h.declared] at known
  cases found : r.resolved.get? base with
  | some other =>
    rw [found] at known
    obtain rfl := Option.some.inj known
    exact h.made base other found
  | none =>
    rw [found] at known
    obtain ⟨p, -, rfl⟩ := Option.map_eq_some_iff.mp known
    rcases type with ⟨p', coded, -, same⟩ | ⟨-, -, -, isRecord, -⟩
    · obtain rfl : p = p' := by injection same
      exact .primitive coded
    · cases isRecord

theorem ends_resolve_made (h : Restores nodes r) (hS : S.Distinct) (sub : nodes ⊆ S.types)
    (refers : Schema.Refers nodes name) (canonical : TypeName.Canonical name) :
    (Registry.resolve name).Ends r
      (fun d r' => Restores nodes r' ∧ d.MadeFrom nodes ∧ d.name = name) fun _ _ => False := by
  have found : (Registry.resolve name).Ends r (fun d r' => d.MadeFrom nodes ∧
      ∀ name d, r'.resolved.get? name = some d → d.MadeFrom nodes) fun _ _ => False := by
    obtain ⟨base, levels, rfl, refers⟩ := refers
    cases found : r.resolved.get? (TypeName.arrays base levels) with
    | some d =>
      rw [ends_resolve_known found]
      exact ⟨h.made _ d found, h.made⟩
    | none =>
      have atomic := Schema.atomic_of_refersBase hS sub refers
      rw [ends_resolve_new found (TypeName.splitArrays_arrays atomic levels)
        fun _ => h.plain base]
      obtain ⟨d, known, type⟩ := h.toKnows.base? hS sub refers
      rw [known]
      have made := (h.base? known type).arrays levels
      refine ⟨made, fun other d' held => ?_⟩
      rcases Cache.get?_add_eq_some held with old | ⟨-, -, rfl⟩
      · exact h.made other d' old
      · exact made
  refine ((ends_resolve h.toKnows hS sub refers).and found).mono ?_ fun _ _ no => no.1
  rintro d r' ⟨⟨knows, type⟩, made, all⟩
  exact ⟨⟨knows, all⟩, made, type.name_eq hS sub canonical⟩

theorem ends_resolveChildren_made (h : Restores nodes r) (hS : S.Distinct) (sub : nodes ⊆ S.types)
    (owner : String) {children : List Node}
    (references : ∀ c ∈ children, ∃ name typeName, c = .member name typeName ∧
      Schema.Refers nodes typeName ∧ TypeName.Canonical typeName) :
    (resolveChildren owner children).Ends r
      (fun members r' => Restores nodes r' ∧ (∀ m ∈ members, m.2.MadeFrom nodes) ∧
        children = members.map fun m => .member m.1 m.2.name) fun _ _ => False := by
  induction children generalizing r with
  | nil =>
    rw [resolveChildren]
    exact ⟨h, List.forall_mem_nil _, rfl⟩
  | cons child others ih =>
    obtain ⟨⟨name, typeName, rfl, refers, canonical⟩, rest⟩ := List.forall_mem_cons.mp references
    rw [resolveChildren, Node.member, Node.name]
    dsimp only
    rw [ends_bind]
    refine (@ends_resolveNode _ _ _ (.mk (some name) typeName [])
      (ends_resolve_made h hS sub refers canonical)).mono ?_ fun _ _ no => no
    rintro d r' ⟨h', made, rfl⟩
    rw [ends_bind]
    refine (ih h' rest).mono ?_ fun _ _ no => no
    rintro members r'' ⟨h'', all, rfl⟩
    exact ⟨h'', List.forall_mem_cons.mpr ⟨made, all⟩, rfl⟩

theorem ends_resolveNode_made {node : Node} (h : Restores nodes r) (hS : S.Distinct)
    (sub : nodes ⊆ S.types) (mem : node ∈ S.types) (new : node ∉ nodes)
    (nameless : node.name = none) (inhabited : node.children ≠ [])
    {names : List String} (named : node.children.map Node.name = names.map some)
    (references : ∀ c ∈ node.children, ∃ name typeName, c = .member name typeName ∧
      Schema.Refers nodes typeName ∧ TypeName.Canonical typeName) :
    (resolveNode node).Ends r (fun _ r' => Restores (nodes ++ [node]) r') fun _ _ => False := by
  have refers : ∀ c ∈ node.children, Schema.Refers nodes c.typeName := by
    intro c hc
    obtain ⟨name, typeName, rfl, refers, -⟩ := references c hc
    exact refers
  have made : (resolveNode node).Ends r (fun _ r' => ∀ name d,
      r'.resolved.get? name = some d → d.MadeFrom (nodes ++ [node])) fun _ _ => False := by
    apply ends_resolveNode_missing inhabited (ends_resolve_missing h.toKnows hS sub mem new)
    refine (ends_resolveChildren_made h hS sub node.typeName references).mono ?_ fun _ _ no => no
    rintro members r' ⟨h', all, children⟩
    have same : node = .mk none node.typeName (members.map fun m => .member m.1 m.2.name) := by
      rw [← children, ← nameless]
      cases node
      rfl
    have more : nodes ⊆ nodes ++ [node] := List.subset_append_left _ _
    rw [ends_addSynthesized (h'.fresh hS sub mem new)]
    intro other d found
    rcases Cache.get?_add_eq_some found with old | ⟨-, -, rfl⟩
    · exact (h'.made other d old).mono more
    · exact .record (same ▸ List.mem_append_right _ List.mem_cons_self)
        fun m hm => (all m hm).mono more
  refine ((ends_resolveNode_new h.toKnows hS sub mem new inhabited refers named).and made).mono ?_
    fun _ _ no => no.1
  rintro d r' ⟨⟨knows, -⟩, made⟩
  exact ⟨knows, made⟩

end Registry

end SchemaCodec
