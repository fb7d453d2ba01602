import SchemaCodec.Proofs.Engine.SchemaCompilation
import SchemaCodec.Proofs.Registry.Filing

/-! # What an accepted schema leaves behind

A new engine compiles the nodes of a schema only if each of them has children, all of which refer to
nodes before it. Then every node has a record with a member for each child, and its plan was chosen
child by child.
-/

namespace SchemaCodec

open SchemaCodec.Action

theorem Plan.Chosen.refers {nodes : List Node} {compiled : String → Option Plan} {d : Descriptor}
    {name : String} {plan : Plan} (h : Chosen compiled d name plan)
    (only : ∀ name plan, compiled name = some plan → ∃ node ∈ nodes, name = node.typeName) :
    Schema.Refers nodes name := by
  induction h with
  | scalar _ spelled => exact ⟨_, 0, rfl, .inl ⟨_, (fun no => by cases no), spelled⟩⟩
  | text _ spelled => exact ⟨_, 0, rfl, .inl ⟨_, (fun no => by cases no), spelled⟩⟩
  | record _ _ _ _ found => exact ⟨_, 0, rfl, .inr (only _ _ found)⟩
  | bulk element spelled =>
    exact ⟨_, 1, TypeName.element?_eq_some.mp element, .inl ⟨_, (fun no => by cases no), spelled⟩⟩
  | elements element _ _ ih =>
    obtain ⟨base, levels, rfl, refers⟩ := ih
    exact ⟨base, levels + 1, TypeName.element?_eq_some.mp element, refers⟩

theorem Descriptor.isRecord_of_members? {d : Descriptor} {C : Catalog}
    {members : List (String × Descriptor)} (known : d.members? C = some members) :
    d.isRecord = true := by
  cases d with
  | declared => rfl
  | built => rfl
  | _ => cases known

abbrev Codings := String → Option Codec

namespace Codings

def plan? (K : Codings) (name : String) : Option Plan := (K name).map Codec.plan

def Included (K later : Codings) : Prop := ∀ name c, K name = some c → later name = some c

theorem Included.plans {K later : Codings} (h : K.Included later) :
    Plan.Included K.plan? later.plan? := by
  intro name plan found
  obtain ⟨c, held, rfl⟩ := Option.map_eq_some_iff.mp found
  exact Option.map_eq_some_iff.mpr ⟨c, h name c held, rfl⟩

end Codings

/-- The record of the node is known and has a member for each child, and the coding of the node has
the plans of the children. -/
def Node.Realized (r : Registry) (K : Codings) (limits : Limits) (node : Node) : Prop :=
  ∃ short members fields,
    r.resolved.get? node.typeName = some (.built node.typeName short .synthesized members) ∧
    K node.typeName = some ⟨node.typeName, .record node.typeName fields, limits⟩ ∧
    node.children.map name = members.map (fun m => some m.1) ∧
    List.Forall₂ (Plan.ChosenChild K.plan? members) node.children fields

theorem Node.Realized.mono {r r' : Registry} {K later : Codings} {limits : Limits} {node : Node}
    (h : node.Realized r K limits) (grown : r.resolved.Extends r'.resolved)
    (more : K.Included later) : node.Realized r' later limits := by
  obtain ⟨short, members, fields, held, coded, names, all⟩ := h
  exact ⟨short, members, fields, grown.get? held, more _ _ coded, names,
    all.imp fun _ _ child => child.mono more.plans⟩

namespace Engine

variable {S : Schema} {C : Catalog} {limits : Limits} {nodes : List Node} {e : Engine}

/-- The engine has reached the nodes, and each of them is realized. -/
structure Assembled (S : Schema) (limits : Limits) (nodes : List Node) (e : Engine) : Prop
    extends Reached S limits nodes e where
  schematic : e.registry.Schematic
  realized : ∀ node ∈ nodes, node.Realized e.registry e.compiled.get? limits

theorem assembled_fresh (S : Schema) (C : Catalog) (limits : Limits) :
    Assembled S limits [] (fresh C limits) where
  toReached := reached_fresh S C limits
  schematic := Registry.schematic_empty
  realized := List.forall_mem_nil _

theorem Reached.refers_of_ofNode (h : Reached S limits nodes e) {node : Node} {d : Descriptor}
    {plan : Plan} (ok : Plan.ofNode e.plan? C node d = .ok plan) :
    ∀ c ∈ node.children, Schema.Refers nodes c.typeName := by
  intro c hc
  obtain ⟨members, fields, -, -, all⟩ := Plan.ofNode_iff.mp ok
  obtain ⟨field, -, d', -, -, chosen⟩ := partner_right all hc
  refine chosen.refers fun name plan found => ?_
  obtain ⟨c', held, -⟩ := plan?_eq_some.mp found
  exact h.only name c' held

theorem listed_of_held {r : Registry} (knows : r.Knows nodes) {d : Descriptor}
    (held : r.resolved.get? d.name = some d) (isRecord : d.isRecord = true) :
    ∃ node ∈ nodes, node.typeName = d.name := by
  obtain ⟨base, levels, b, same, rfl, hb⟩ := knows.resolved _ d held
  cases levels with
  | succ levels => cases isRecord
  | zero =>
    rcases hb with ⟨p, -, -, rfl⟩ | ⟨node, mem, rfl, -⟩
    · cases isRecord
    · exact ⟨node, mem, same.symm⟩

theorem built_of_held (hS : S.Distinct) (sub : nodes ⊆ S.types) {r : Registry}
    (knows : r.Knows nodes) (schematic : r.Schematic) {node : Node} (mem : node ∈ S.types)
    {d : Descriptor} (held : r.resolved.get? node.typeName = some d)
    (isRecord : d.isRecord = true) :
    ∃ short members, d = .built node.typeName short .synthesized members := by
  obtain ⟨short, members, made, -⟩ := (schematic.filed _ d held).eq_built isRecord
  rcases (knows.resolved _ d held).base hS sub (hS.wellFormed node mem).toAtomic with
    ⟨p, -, -, rfl⟩ | ⟨-, -, -, -, own⟩
  · cases isRecord
  · rw [own] at made
    exact ⟨short, members, made⟩

theorem Assembled.next (hS : S.Distinct) {node : Node} {others : List Node} {names : List String}
    (split : S.types = nodes ++ node :: others) (h : Assembled S limits nodes e)
    (labels : node.children.map Node.name = names.map some) (unique : names.Nodup)
    {d : Descriptor} {r : Registry} {members : List (String × Descriptor)}
    (knows : r.Knows (nodes ++ [node])) (known : d.members? = fun _ => some members)
    (keys : members.map Prod.fst = names)
    (typed : List.Forall₂ (fun c m => c.name = some m.1 ∧ Schema.HasType nodes c.typeName m.2)
      node.children members)
    (schematic : r.Schematic) (grown : e.registry.resolved.Extends r.resolved)
    (held : r.resolved.get? node.typeName = some d) {plan : Plan}
    (ok : Plan.ofNode e.plan? e.catalog node d = .ok plan) :
    Assembled S limits (nodes ++ [node])
      (note { e with registry := r } ⟨node.typeName, plan, e.limits⟩) := by
  obtain ⟨mem, sub, apart⟩ := apart_of_listed hS split
  have sub' : nodes ++ [node] ⊆ S.types := by
    rw [split, List.append_cons nodes node others]
    exact List.subset_append_left _ _
  obtain ⟨fields, chosen, sims⟩ := chosen_children hS sub h.linked
    (keys ▸ unique) (List.Subset.refl members) typed
  have here : Plan.ofNode e.plan? e.catalog node d = .ok (.record node.typeName fields) :=
    Plan.ofNode_iff.mpr ⟨members, fields, congrFun known e.catalog, rfl, chosen⟩
  obtain rfl := Except.ok.inj (here.symm.trans ok)
  have isRecord := Descriptor.isRecord_of_members? (congrFun known e.catalog)
  obtain ⟨short, made, rfl⟩ := built_of_held hS sub' knows schematic mem held isRecord
  obtain rfl : made = members := Option.some.inj (congrFun known e.catalog)
  let later := note { e with registry := r } ⟨node.typeName, .record node.typeName fields, e.limits⟩
  have more : Codings.Included e.compiled.get? later.compiled.get? :=
    fun name c found => Cache.get?_add_of_some found _ _
  refine ⟨h.toReached.next hS split knows sims, schematic, fun other hother => ?_⟩
  rcases List.mem_append.mp hother with old | last
  · exact (h.realized other old).mono grown more
  · obtain rfl := List.mem_singleton.mp last
    refine ⟨short, made, fields, held, ?_, ?_, chosen.imp fun _ _ c => c.mono more.plans⟩
    · rw [← h.limits_eq]
      exact get?_note (e := { e with registry := r }) (h.not_compiled apart)
    · rw [labels, ← keys, List.map_map]
      rfl

/-- A node is compiled after the nodes before it, or it is not accepted. -/
theorem Assembled.ends_next (hS : S.Distinct) {node : Node} {others : List Node}
    (named : ∃ names : List String, node.children.map Node.name = names.map some ∧ names.Nodup)
    (split : S.types = nodes ++ node :: others) (h : Assembled S limits nodes e) :
    (Registry.resolveNode node).Ends e.registry
      (fun d r => ∀ plan, Plan.ofNode e.plan? e.catalog node d = .ok plan →
        Assembled S limits (nodes ++ [node])
          (note { e with registry := r } ⟨node.typeName, plan, e.limits⟩))
      fun _ _ => True := by
  obtain ⟨mem, sub, apart⟩ := apart_of_listed hS split
  have new : node ∉ nodes := fun old => apart node old rfl
  by_cases childless : node.children = []
  · exact Registry.ends_resolveNode_childless childless
      (Registry.ends_resolve_missing h.knows hS sub mem new) trivial
  · by_cases refers : ∀ c ∈ node.children, Schema.Refers nodes c.typeName
    · obtain ⟨names, labels, unique⟩ := named
      have step := Registry.ends_resolveNode_new h.knows hS sub mem new childless refers labels
      refine ((step.and (Registry.schematic_resolveNode node h.schematic)).and
        (Registry.ends_resolveNode_noted node e.registry)).mono ?_ fun _ _ _ => trivial
      rintro d r ⟨⟨⟨knows, members, known, keys, typed⟩, schematic, -, grown⟩, held⟩ plan ok
      exact h.next hS split labels unique knows known keys typed schematic grown held ok
    · refine (keeps_trivial _ e.registry trivial).mono ?_ fun _ _ _ => trivial
      exact fun d r _ plan ok => absurd (h.refers_of_ofNode ok) refers

/-- If the listed nodes are compiled, they are assembled. -/
theorem ends_compileNodes_assembled (hS : S.Distinct)
    (named : ∀ node ∈ S.types, ∃ names : List String,
      node.children.map Node.name = names.map some ∧ names.Nodup)
    {rest : List Node} (split : S.types = nodes ++ rest) (h : Assembled S limits nodes e) :
    (compileNodes rest).Ends e (fun _ e' => Assembled S limits S.types e') fun _ _ => True := by
  induction rest generalizing nodes e with
  | nil =>
    rw [List.append_nil] at split
    rw [split]
    exact h
  | cons node rest ih =>
    obtain ⟨mem, -, apart⟩ := apart_of_listed hS split
    rw [ends_compileNodes_uncompiled (h.not_compiled apart)]
    refine (h.ends_next hS (named node mem) split).mono (fun d r next => ?_) fun _ _ _ => trivial
    rw [List.append_cons] at split
    exact ⟨fun plan ok => ih split (next plan ok), fun _ _ => trivial⟩

end Engine

end SchemaCodec
