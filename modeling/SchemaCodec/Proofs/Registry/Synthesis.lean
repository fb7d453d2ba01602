import SchemaCodec.Proofs.Plan.Choice
import SchemaCodec.Proofs.Registry.Resolution
import SchemaCodec.Proofs.Schema.Simulation

/-! # Types made from schemas

A schema of unknown types is resolved node by node: each node becomes a record of its children,
whose names refer to primitives and to the nodes before. Every name gets a plan that does what the
schema means by it.
-/

namespace SchemaCodec

open SchemaCodec.Action

namespace Schema

/-- The base of a type name is a spelled primitive with an encoding, or the name of one of the
given nodes. -/
def RefersBase (nodes : List Node) (base : String) : Prop :=
  (∃ p, p ≠ .decimal ∧ Primitive.ofSpelling? base = some p) ∨ ∃ node ∈ nodes, base = node.typeName

/-- The name is that of such a base under any number of marks of sequences. -/
def Refers (nodes : List Node) (name : String) : Prop :=
  ∃ base levels, name = TypeName.arrays base levels ∧ RefersBase nodes base

/-- The listed records have distinct well-formed names and distinctly named children, at least one
each, which refer to primitives and to records listed before; the root refers to any record. -/
structure WellFormed (S : Schema) : Prop extends Distinct S where
  inhabited : ∀ node ∈ S.types, node.children ≠ []
  named : ∀ node ∈ S.types, ∃ names : List String,
    node.children.map Node.name = names.map some ∧ names.Nodup
  ordered : ∀ before node after, S.types = before ++ node :: after →
    ∀ child ∈ node.children, Refers before child.typeName
  rooted : Refers S.types S.typeName

/-- The listed records are as in a well-formed schema, but some may have no children. -/
structure Arranged (S : Schema) : Prop extends Distinct S where
  named : ∀ node ∈ S.types, ∃ names : List String,
    node.children.map Node.name = names.map some ∧ names.Nodup
  ordered : ∀ before node after, S.types = before ++ node :: after →
    ∀ child ∈ node.children, Refers before child.typeName
  rooted : Refers S.types S.typeName

theorem WellFormed.arranged {S : Schema} (hS : WellFormed S) : Arranged S :=
  ⟨hS.toDistinct, hS.named, hS.ordered, hS.rooted⟩

theorem Arranged.wellFormed_of_inhabited {S : Schema} (hS : Arranged S)
    (inhabited : ∀ node ∈ S.types, node.children ≠ []) : WellFormed S :=
  ⟨hS.toDistinct, inhabited, hS.named, hS.ordered, hS.rooted⟩

def BaseType (nodes : List Node) (base : String) (d : Descriptor) : Prop :=
  (∃ p, p ≠ .decimal ∧ Primitive.ofSpelling? base = some p ∧ d = .primitive p) ∨
    ∃ node ∈ nodes, base = node.typeName ∧ d.isRecord = true ∧ d.name = base

/-- The type of a name is that of its base under as many levels of arrays. -/
def HasType (nodes : List Node) (name : String) (d : Descriptor) : Prop :=
  ∃ base levels b, name = TypeName.arrays base levels ∧ d = b.arrays levels ∧ BaseType nodes base b

variable {S : Schema} {limits : Limits} {nodes : List Node} {name : String} {d : Descriptor}

theorem atomic_of_refersBase (hS : Distinct S) (sub : nodes ⊆ S.types) {base : String}
    (h : RefersBase nodes base) : TypeName.Atomic base := by
  rcases h with ⟨p, -, spelled⟩ | ⟨node, mem, rfl⟩
  · exact TypeName.atomic_of_spelling spelled
  · exact (hS.wellFormed node (sub mem)).toAtomic

theorem BaseType.refers {base : String} (h : BaseType nodes base d) : RefersBase nodes base := by
  rcases h with ⟨p, coded, spelled, -⟩ | ⟨node, mem, named, -⟩
  · exact .inl ⟨p, coded, spelled⟩
  · exact .inr ⟨node, mem, named⟩

theorem HasType.mono {more : List Node} (h : HasType nodes name d) (sub : nodes ⊆ more) :
    HasType more name d := by
  obtain ⟨base, levels, b, rfl, rfl, hb⟩ := h
  refine ⟨base, levels, b, rfl, rfl, ?_⟩
  rcases hb with spelled | ⟨node, mem, record⟩
  · exact .inl spelled
  · exact .inr ⟨node, sub mem, record⟩

theorem HasType.base (hS : Distinct S) (sub : nodes ⊆ S.types) (atomic : TypeName.Atomic name)
    (h : HasType nodes name d) : BaseType nodes name d := by
  obtain ⟨base, levels, b, same, rfl, hb⟩ := h
  have bare : TypeName.arrays name 0 = TypeName.arrays base levels := same
  obtain ⟨rfl, rfl⟩ := TypeName.arrays_inj atomic (atomic_of_refersBase hS sub hb.refers) bare
  exact hb

theorem chosen_of_hasType (hS : Distinct S) (sub : nodes ⊆ S.types)
    {compiled : String → Option Plan}
    (linked : ∀ node ∈ nodes, ∃ plan, compiled node.typeName = some plan ∧
      Simulates S limits node.typeName plan) (h : HasType nodes name d) :
    ∃ plan, Plan.Chosen compiled d name plan ∧ Simulates S limits name plan := by
  obtain ⟨base, levels, b, rfl, rfl, hb⟩ := h
  have atomic := atomic_of_refersBase hS sub hb.refers
  induction levels with
  | zero =>
    rcases hb with ⟨p, coded, spelled, rfl⟩ | ⟨node, mem, rfl, isRecord, named⟩
    · rcases p with k | _ | _
      · exact ⟨_, .scalar (TypeName.element?_atomic atomic) spelled, simulates_scalar hS spelled⟩
      · exact ⟨_, .text (TypeName.element?_atomic atomic) spelled, simulates_text hS spelled⟩
      · exact absurd rfl coded
    · obtain ⟨plan, found, sim⟩ := linked node mem
      exact ⟨plan, .record (TypeName.element?_atomic atomic)
        (hS.wellFormed node (sub mem)).foreign isRecord named found, sim⟩
  | succ levels ih =>
    obtain ⟨plan, chosen, sim⟩ := ih
    cases kind : Plan.bulkKind? .array (b.arrays levels) (TypeName.arrays base levels) with
    | some k =>
      obtain ⟨-, element, spelled⟩ := Plan.bulkKind?_eq_some.mp kind
      refine ⟨.bulk k, ?_, simulates_bulk hS spelled⟩
      rw [Descriptor.arrays, element]
      exact .bulk (TypeName.element?_array _) spelled
    | none =>
      refine ⟨.elements plan, .elements (TypeName.element?_array _) kind chosen, ?_⟩
      refine simulates_elements hS ?_ sim
      -- A spelled scalar has no marks, so its type is the scalar, which is coded in bulk.
      intro k spelled
      cases levels with
      | succ levels => cases (TypeName.ofSpelling?_array _).symm.trans spelled
      | zero =>
        rcases hb with ⟨p, -, spelled', rfl⟩ | ⟨node, mem, rfl, -⟩
        · obtain ⟨⟩ := spelled.symm.trans spelled'
          cases kind.symm.trans (Plan.bulkKind?_eq_some.mpr ⟨rfl, rfl, spelled⟩)
        · exact hS.not_spelled (sub mem) spelled

end Schema

/-! ## Resolution -/

namespace Registry

variable {S : Schema} {nodes : List Node} {r : Registry} {name : String}

/-- The registry knows types of referred names only, and it has made a record for each node and no
others. -/
structure Knows (nodes : List Node) (r : Registry) : Prop where
  declared : r.declared = .empty
  generics : r.generics = .empty
  synthesized : r.synthesized = nodes.length
  resolved : ∀ name d, r.resolved.get? name = some d → Schema.HasType nodes name d
  listed : ∀ node ∈ nodes, ∃ d, r.resolved.get? node.typeName = some d

theorem Knows.plain (h : Knows nodes r) (base : String) : r.application? base = none :=
  plain_of_generics h.generics base

theorem Knows.note {d : Descriptor} (h : Knows nodes r) (hd : Schema.HasType nodes name d) :
    Knows nodes (r.note name d) := by
  refine ⟨h.declared, h.generics, h.synthesized, ?_, ?_⟩
  · intro other d' found
    rcases Cache.get?_add_eq_some found with old | ⟨-, rfl, rfl⟩
    · exact h.resolved other d' old
    · exact hd
  · intro node mem
    obtain ⟨d', found⟩ := h.listed node mem
    exact ⟨d', Cache.get?_add_of_some found name d⟩

theorem Knows.base? {base : String} (h : Knows nodes r) (hS : S.Distinct) (sub : nodes ⊆ S.types)
    (refers : Schema.RefersBase nodes base) :
    ∃ d, r.base? base = some d ∧ Schema.BaseType nodes base d := by
  have atomic := Schema.atomic_of_refersBase hS sub refers
  unfold Registry.base?
  rw [h.declared]
  cases found : r.resolved.get? base with
  | some d => exact ⟨d, rfl, (h.resolved base d found).base hS sub atomic⟩
  | none =>
    rcases refers with ⟨p, coded, spelled⟩ | ⟨node, mem, rfl⟩
    · rw [spelled]
      exact ⟨.primitive p, rfl, .inl ⟨p, coded, spelled, rfl⟩⟩
    · obtain ⟨d, known⟩ := h.listed node mem
      cases found.symm.trans known

theorem ends_resolve (h : Knows nodes r) (hS : S.Distinct) (sub : nodes ⊆ S.types)
    (refers : Schema.Refers nodes name) :
    (Registry.resolve name).Ends r (fun d r' => Knows nodes r' ∧ Schema.HasType nodes name d)
      fun _ _ => False := by
  obtain ⟨base, levels, rfl, refers⟩ := refers
  cases found : r.resolved.get? (TypeName.arrays base levels) with
  | some d =>
    rw [ends_resolve_known found]
    exact ⟨h, h.resolved _ d found⟩
  | none =>
    have atomic := Schema.atomic_of_refersBase hS sub refers
    rw [ends_resolve_new found (TypeName.splitArrays_arrays atomic levels)
      fun _ => h.plain base]
    obtain ⟨d, known, type⟩ := h.base? hS sub refers
    rw [known]
    have typed : Schema.HasType nodes (TypeName.arrays base levels) (d.arrays levels) :=
      ⟨base, levels, d, rfl, rfl, type⟩
    exact ⟨h.note typed, typed⟩

theorem Knows.fresh {node : Node} (h : Knows nodes r) (hS : S.Distinct) (sub : nodes ⊆ S.types)
    (mem : node ∈ S.types) (new : node ∉ nodes) : r.resolved.get? node.typeName = none := by
  cases found : r.resolved.get? node.typeName with
  | none => rfl
  | some d =>
    have wellFormed := hS.wellFormed node mem
    rcases (h.resolved _ d found).base hS sub wellFormed.toAtomic with
      ⟨p, -, spelled, -⟩ | ⟨other, mem', same, -⟩
    · cases wellFormed.foreign.symm.trans spelled
    · obtain rfl := hS.node_eq mem (sub mem') same
      exact absurd mem' new

theorem ends_resolve_missing {node : Node} (h : Knows nodes r) (hS : S.Distinct)
    (sub : nodes ⊆ S.types) (mem : node ∈ S.types) (new : node ∉ nodes) :
    (Registry.resolve node.typeName).Ends r (fun _ _ => False)
      fun e r' => e = .typeNotFound node.typeName ∧ r' = r := by
  have wellFormed := hS.wellFormed node mem
  have unknown := h.fresh hS sub mem new
  rw [ends_resolve_new unknown (TypeName.splitArrays_arrays wellFormed.toAtomic 0)
    fun _ => h.plain node.typeName]
  have none_known : r.base? node.typeName = none := by
    unfold Registry.base?
    rw [unknown, h.declared, wellFormed.foreign]
    rfl
  rw [none_known]
  exact ⟨rfl, rfl⟩

theorem ends_resolveChildren (h : Knows nodes r) (hS : S.Distinct) (sub : nodes ⊆ S.types)
    (owner : String) {children : List Node}
    (refers : ∀ c ∈ children, Schema.Refers nodes c.typeName)
    {names : List String} (named : children.map Node.name = names.map some) :
    (resolveChildren owner children).Ends r
      (fun members r' => Knows nodes r' ∧ members.map Prod.fst = names ∧
        List.Forall₂ (fun c m => c.name = some m.1 ∧ Schema.HasType nodes c.typeName m.2)
          children members)
      fun _ _ => False := by
  induction children generalizing r names with
  | nil =>
    obtain rfl := List.map_eq_nil_iff.mp named.symm
    rw [resolveChildren]
    exact ⟨h, rfl, .nil⟩
  | cons child others ih =>
    cases names with
    | nil => cases named
    | cons name names =>
      obtain ⟨first, rest⟩ := List.cons.inj named
      rw [resolveChildren, first]
      dsimp only
      rw [ends_bind]
      refine (ends_resolveNode (ends_resolve h hS sub (refers child List.mem_cons_self))).mono ?_
        fun _ _ no => no
      rintro d r' ⟨h', typed⟩
      rw [ends_bind]
      refine (ih h' (fun c hc => refers c (List.mem_cons_of_mem _ hc)) rest).mono ?_
        fun _ _ no => no
      rintro members r'' ⟨h'', keys, all⟩
      exact ⟨h'', congrArg (name :: ·) keys, .cons ⟨first, typed⟩ all⟩

/-- A node that is reached for the first time becomes a record of its children. -/
theorem ends_resolveNode_new {node : Node} (h : Knows nodes r) (hS : S.Distinct)
    (sub : nodes ⊆ S.types) (mem : node ∈ S.types) (new : node ∉ nodes)
    (inhabited : node.children ≠ [])
    (refers : ∀ c ∈ node.children, Schema.Refers nodes c.typeName)
    {names : List String} (named : node.children.map Node.name = names.map some) :
    (resolveNode node).Ends r
      (fun d r' => Knows (nodes ++ [node]) r' ∧ ∃ members, d.members? = (fun _ => some members) ∧
        members.map Prod.fst = names ∧
        List.Forall₂ (fun c m => c.name = some m.1 ∧ Schema.HasType nodes c.typeName m.2)
          node.children members)
      fun _ _ => False := by
  apply ends_resolveNode_missing inhabited (ends_resolve_missing h hS sub mem new)
  refine (ends_resolveChildren h hS sub node.typeName refers named).mono ?_ fun _ _ no => no
  rintro members r' ⟨h', keys, all⟩
  rw [ends_addSynthesized (h'.fresh hS sub mem new)]
  have counted : r'.synthesized + 1 = (nodes ++ [node]).length := by
    rw [h'.synthesized, List.length_append, List.length_singleton]
  refine ⟨⟨h'.declared, h'.generics, counted, ?_, ?_⟩, members, rfl, keys, all⟩
  · intro other d found
    rcases Cache.get?_add_eq_some found with old | ⟨-, rfl, rfl⟩
    · exact (h'.resolved other d old).mono (List.subset_append_left _ _)
    · exact ⟨node.typeName, 0, _, rfl, rfl, .inr ⟨node, by simp, rfl, rfl, rfl⟩⟩
  · intro other mem'
    rcases List.mem_append.mp mem' with old | last
    · obtain ⟨d, found⟩ := h'.listed other old
      exact ⟨d, Cache.get?_add_of_some found _ _⟩
    · obtain rfl := List.mem_singleton.mp last
      exact ⟨_, Cache.get?_add_self _ _ _⟩

end Registry

end SchemaCodec
