import SchemaCodec.Proofs.Engine.Compilation
import SchemaCodec.Proofs.Engine.ExactSize
import SchemaCodec.Proofs.Registry.Synthesis

/-! # Compiling schemas of unknown types

A fresh engine compiles the listed nodes in turn and then the root, and each coding does what the
schema means by its name.
-/

namespace SchemaCodec.Engine

open SchemaCodec.Action

variable {S : Schema} {C : Catalog} {limits : Limits} {nodes : List Node} {e : Engine}

/-- The engine has reached the nodes: it knows their types, and it holds for each of them, and for
nothing else, a coding that does what the schema means. -/
structure Reached (S : Schema) (limits : Limits) (nodes : List Node) (e : Engine) : Prop where
  limits_eq : e.limits = limits
  knows : e.registry.Knows nodes
  compiled : ∀ node ∈ nodes, ∃ c, e.compiled.get? node.typeName = some c ∧
    S.Simulates limits node.typeName c.plan ∧ c.limits = limits
  only : ∀ name c, e.compiled.get? name = some c → ∃ node ∈ nodes, name = node.typeName

theorem reached_fresh (S : Schema) (C : Catalog) (limits : Limits) :
    Reached S limits [] (fresh C limits) where
  limits_eq := rfl
  knows := ⟨rfl, rfl, rfl, (fun _ _ h => nomatch h), fun _ h => nomatch h⟩
  compiled := fun _ h => nomatch h
  only := fun _ _ h => nomatch h

theorem Reached.linked (h : Reached S limits nodes e) (node : Node) (mem : node ∈ nodes) :
    ∃ plan, e.plan? node.typeName = some plan ∧ S.Simulates limits node.typeName plan := by
  obtain ⟨c, found, sim, -⟩ := h.compiled node mem
  exact ⟨c.plan, by rw [plan?, found]; rfl, sim⟩

theorem Reached.not_compiled (h : Reached S limits nodes e) {name : String}
    (other : ∀ node ∈ nodes, name ≠ node.typeName) : e.compiled.get? name = none := by
  cases found : e.compiled.get? name with
  | none => rfl
  | some c =>
    obtain ⟨node, mem, same⟩ := h.only name c found
    exact absurd same (other node mem)

theorem chosen_children (hS : S.Distinct) (sub : nodes ⊆ S.types)
    {compiled : String → Option Plan}
    (linked : ∀ node ∈ nodes, ∃ plan, compiled node.typeName = some plan ∧
      S.Simulates limits node.typeName plan)
    {members : List (String × Descriptor)} (unique : (members.map Prod.fst).Nodup)
    {children : List Node} {own : List (String × Descriptor)} (own_sub : own ⊆ members)
    (typed : List.Forall₂ (fun (c : Node) m => c.name = some m.1 ∧
      Schema.HasType nodes c.typeName m.2) children own) :
    ∃ fields, List.Forall₂ (Plan.ChosenChild compiled members) children fields ∧
      List.Forall₂ (S.SimulatesChild limits) children fields := by
  induction typed with
  | nil => exact ⟨[], .nil, .nil⟩
  | @cons c m children own head _ ih =>
    obtain ⟨named, type⟩ := head
    obtain ⟨fields, chosen, sims⟩ := ih fun p hp => own_sub (List.mem_cons_of_mem _ hp)
    obtain ⟨plan, choice, sim⟩ := Schema.chosen_of_hasType hS sub linked type
    have found : members.lookup m.1 = some m.2 := lookup_of_mem unique (own_sub List.mem_cons_self)
    exact ⟨(m.1, plan) :: fields, .cons ⟨m.2, named, found, choice⟩ chosen,
      .cons ⟨named, sim⟩ sims⟩

theorem apart_of_listed (hS : S.Distinct) {node : Node} {others : List Node}
    (split : S.types = nodes ++ node :: others) :
    node ∈ S.types ∧ nodes ⊆ S.types ∧ ∀ other ∈ nodes, node.typeName ≠ other.typeName := by
  refine ⟨by rw [split]; simp, split ▸ List.subset_append_left _ _, ?_⟩
  intro other hother same
  have unique := hS.unique
  rw [split, List.map_append, List.map_cons] at unique
  exact (List.nodup_append.mp unique).2.2 _ (List.mem_map_of_mem hother) _
    List.mem_cons_self same.symm

/-- With its type and its plan, a node is reached after the nodes before it. -/
theorem Reached.next (hS : S.Distinct) {node : Node} {others : List Node}
    (split : S.types = nodes ++ node :: others) (h : Reached S limits nodes e) {r : Registry}
    (knows : r.Knows (nodes ++ [node])) {fields : List (String × Plan)}
    (sims : List.Forall₂ (S.SimulatesChild limits) node.children fields) :
    Reached S limits (nodes ++ [node])
      (note { e with registry := r } ⟨node.typeName, .record node.typeName fields, e.limits⟩) := by
  obtain ⟨mem, -, apart⟩ := apart_of_listed hS split
  refine ⟨h.limits_eq, knows, ?_, ?_⟩
  · intro other hother
    rcases List.mem_append.mp hother with old | last
    · obtain ⟨c, found, done⟩ := h.compiled other old
      exact ⟨c, Cache.get?_add_of_some found _ _, done⟩
    · obtain rfl := List.mem_singleton.mp last
      exact ⟨_, get?_note (e := { e with registry := r }) (h.not_compiled apart),
        Schema.simulates_record hS mem sims, h.limits_eq⟩
  · intro name c found
    rcases Cache.get?_add_eq_some found with old | ⟨-, same, -⟩
    · obtain ⟨other, hother, same⟩ := h.only name c old
      exact ⟨other, List.mem_append_left _ hother, same⟩
    · exact ⟨node, by simp, same⟩

theorem ends_compileNodes (hS : S.Arranged) {rest others : List Node}
    {Q : Unit → Engine → Prop} {R : Error → Engine → Prop}
    (split : S.types = nodes ++ rest ++ others) (inhabited : ∀ node ∈ rest, node.children ≠ [])
    (h : Reached S limits nodes e)
    (next : ∀ e', Reached S limits (nodes ++ rest) e' → (compileNodes others).Ends e' Q R) :
    (compileNodes (rest ++ others)).Ends e Q R := by
  induction rest generalizing nodes e with
  | nil =>
    rw [List.append_nil] at next
    exact next e h
  | cons node rest ih =>
    have split' : S.types = nodes ++ node :: (rest ++ others) := by
      rw [split, List.append_assoc, List.cons_append]
    obtain ⟨mem, sub, apart⟩ := apart_of_listed hS.toDistinct split'
    have new : node ∉ nodes := fun old => apart node old rfl
    have uncompiled := h.not_compiled apart
    obtain ⟨names, named, unique⟩ := hS.named node mem
    apply ends_compileNodes_new uncompiled
    refine (Registry.ends_resolveNode_new h.knows hS.toDistinct sub mem new
      (inhabited node List.mem_cons_self) (hS.ordered nodes node _ split') named).mono ?_
        fun _ _ no => no.elim
    rintro d r ⟨knows, members, known, keys, typed⟩
    obtain ⟨fields, chosen, sims⟩ := chosen_children hS.toDistinct sub h.linked
      (keys ▸ unique) (List.Subset.refl members) typed
    refine ⟨.record node.typeName fields, Plan.ofNode_iff.mpr ⟨members, fields,
      congrFun known e.catalog, rfl, chosen⟩, ?_⟩
    rw [List.append_cons] at split next
    exact ih split (fun n mem => inhabited n (List.mem_cons_of_mem _ mem))
      (h.next hS.toDistinct split' knows sims) next

theorem ends_compileNodes_childless (hS : S.Arranged) {node : Node} {others : List Node}
    {Q : Unit → Engine → Prop} (split : S.types = nodes ++ node :: others)
    (childless : node.children = []) (h : Reached S limits nodes e) :
    (compileNodes (node :: others)).Ends e Q fun err _ => err = .typeNotFound node.typeName := by
  obtain ⟨mem, sub, apart⟩ := apart_of_listed hS.toDistinct split
  have new : node ∉ nodes := fun old => apart node old rfl
  apply ends_compileNodes_new (h.not_compiled apart)
  exact Registry.ends_resolveNode_childless childless
    (Registry.ends_resolve_missing h.knows hS.toDistinct sub mem new) rfl

theorem ends_compileRoot (hS : S.Distinct) (h : Reached S limits S.types e) {name : String}
    {d : Descriptor} (typed : Schema.HasType S.types name d)
    (new : e.compiled.get? name = none) :
    (compileRoot name d).Ends e
      (fun c e' => S.Simulates limits name c.plan ∧ c.limits = limits ∧
        e'.compiled.get? name = some c ∧ e'.registry = e.registry)
      fun _ _ => False := by
  obtain ⟨plan, chosen, sim⟩ :=
    Schema.chosen_of_hasType hS (List.Subset.refl _) h.linked typed
  rw [ends_compileRoot_new new chosen]
  exact ⟨sim, h.limits_eq, get?_note (c := ⟨name, plan, e.limits⟩) new, rfl⟩

/-- The coding is held under the name of the root and does what the schema means by it, and a record
was made for each listed node. -/
structure Holds (S : Schema) (limits : Limits) (c : Codec) (e : Engine) : Prop where
  simulates : S.Simulates limits S.typeName c.plan
  limits_eq : c.limits = limits
  held : e.compiled.get? S.typeName = some c
  synthesized : e.registry.synthesized = S.types.length

theorem ends_codecOfRoot (hS : S.WellFormed) (h : Reached S limits S.types e) :
    (codecOfRoot S).Ends e (Holds S limits) fun _ _ => False := by
  unfold codecOfRoot
  rw [ends_bind, ends_get]
  cases found : e.compiled.get? S.typeName with
  | some c =>
    obtain ⟨node, mem, same⟩ := h.only _ c found
    obtain ⟨c', found', sim, limits_eq⟩ := h.compiled node mem
    rw [← same] at found' sim
    obtain rfl := Option.some.inj (found.symm.trans found')
    exact ⟨sim, limits_eq, found, h.knows.synthesized⟩
  | none =>
    dsimp only
    rw [ends_bind, resolve, ends_resolving]
    refine (Registry.ends_resolve h.knows hS.toDistinct (List.Subset.refl _) hS.rooted).mono ?_
      fun _ _ no => no
    rintro d r ⟨knows, typed⟩
    have other : ¬ d.isRecord = true := by
      obtain ⟨base, levels, b, same, rfl, hb⟩ := typed
      cases levels with
      | succ levels => exact Bool.false_ne_true
      | zero =>
        rcases hb with ⟨p, -, -, rfl⟩ | ⟨node, mem, rfl, -⟩
        · exact Bool.false_ne_true
        · obtain ⟨c, known, -⟩ := h.compiled node mem
          rw [show S.typeName = node.typeName from same] at found
          cases found.symm.trans known
    rw [if_neg other]
    have reached : Reached S limits S.types { e with registry := r } :=
      ⟨h.limits_eq, knows, h.compiled, h.only⟩
    refine (ends_compileRoot hS.toDistinct reached typed found).mono ?_ fun _ _ no => no
    rintro c e' ⟨sim, limits_eq, held, same⟩
    exact ⟨sim, limits_eq, held, (congrArg Registry.synthesized same).trans knows.synthesized⟩

theorem ends_codecOfSchema_fresh {Q : Codec → Engine → Prop} {R : Error → Engine → Prop}
    (nodes : ∀ e, Reached S limits [] e →
      (compileNodes S.types).Ends e (fun _ e' => (codecOfRoot S).Ends e' Q R) R) :
    (codecOfSchema S).Ends (fresh C limits) Q R := by
  have start := reached_fresh S C limits
  rw [ends_codecOfSchema_new rfl]
  exact nodes _ ⟨start.limits_eq, start.knows, start.compiled, start.only⟩

/-- On a fresh engine a well-formed schema is compiled. -/
theorem ends_codecOfSchema (C : Catalog) (limits : Limits) (hS : S.WellFormed) :
    (codecOfSchema S).Ends (fresh C limits) (Holds S limits) fun _ _ => False := by
  refine ends_codecOfSchema_fresh fun e h => ?_
  rw [← List.append_nil S.types]
  refine ends_compileNodes hS.arranged (List.append_nil S.types).symm hS.inhabited h ?_
  intro e' h'
  rw [compileNodes, ends_pure]
  exact ends_codecOfRoot hS h'

theorem ends_codecOfSchema_childless (C : Catalog) (limits : Limits) (hS : S.Arranged)
    {node : Node} (first : S.types.find? (·.children.isEmpty) = some node) :
    (codecOfSchema S).Ends (fresh C limits) (fun _ _ => False)
      fun err _ => err = .typeNotFound node.typeName := by
  obtain ⟨childless, before, others, split, earlier⟩ := List.find?_eq_some_iff_append.mp first
  have inhabited : ∀ n ∈ before, n.children ≠ [] := by
    intro n mem empty
    have some_child := earlier n mem
    rw [empty] at some_child
    cases some_child
  refine ends_codecOfSchema_fresh fun e h => ?_
  rw [split]
  exact ends_compileNodes hS split inhabited h fun e' h' =>
    ends_compileNodes_childless hS split (List.isEmpty_iff.mp childless) h'

/-- On a fresh engine a well-formed schema compiles, and its coding writes a value to exactly the
bytes that the schema means by it and reads from a buffer exactly the pieces that stand for a value,
leaving what follows them. -/
theorem compiled_schema_meaning (C : Catalog) (limits : Limits) (hS : S.WellFormed) :
    ∃ c, (codecOfSchema S (fresh C limits)).result = .ok c ∧
      (∀ v bytes, c.Writes v bytes ↔ S.Written S.typeName v bytes) ∧
      ∀ input v source, c.decode (.ofBytes input) = .ok v source ↔
        ∃ piece rest, input = piece ++ rest ∧ source = .buffer piece.length rest ∧
          S.Read limits S.typeName piece v := by
  obtain ⟨c, ok, sim, limits_eq, -⟩ := (ends_codecOfSchema C limits hS).result
  refine ⟨c, ok, ?_, ?_⟩
  · intro v bytes
    rw [Codec.writes_iff, sim.written]
  · intro input v source
    subst limits_eq
    have accepts : c.decode (.ofBytes input) = .ok v source ↔ _ :=
      Plan.accepts_decode c.plan 0 input v source
    simp only [accepts, Nat.zero_add, sim.read]

/-- A list of one record with a byte is written as its count and the byte. -/
theorem compiled_schema_meaning_records : ∃ c,
    (codecOfSchema ⟨"P[]", 0, [.mk none "P" [.member "x" "Int8"]]⟩
      (fresh ⟨fun _ => ⟨[], true, .declared⟩, 0⟩ .standard)).result = .ok c ∧
    c.Writes (.list [.record "P" [("x", .scalar .int8 7)]]) [1, 0, 0, 0, 7] := by
  have spelled : Primitive.ofSpelling? "Int8" = some (.scalar .int8) := by decide
  have wellFormed : Schema.WellFormed ⟨"P[]", 0, [.mk none "P" [.member "x" "Int8"]]⟩ := by
    refine ⟨⟨?_, by decide⟩, ?_, ?_, ?_, ?_⟩
    · intro node mem
      obtain rfl := List.mem_singleton.mp mem
      exact ⟨TypeName.atomic_of_unbracketed (by decide), by decide⟩
    · intro node mem
      obtain rfl := List.mem_singleton.mp mem
      exact List.cons_ne_nil _ _
    · intro node mem
      obtain rfl := List.mem_singleton.mp mem
      exact ⟨["x"], rfl, by decide⟩
    · intro before node after split child hchild
      have mem : node ∈ [Node.mk none "P" [.member "x" "Int8"]] := by
        rw [show [Node.mk none "P" [.member "x" "Int8"]] = before ++ node :: after from split]
        simp
      obtain rfl := List.mem_singleton.mp mem
      obtain rfl := List.mem_singleton.mp hchild
      exact ⟨"Int8", 0, rfl, .inl ⟨.scalar .int8, by decide, spelled⟩⟩
    · exact ⟨"P", 1, by decide, .inr ⟨_, List.mem_singleton.mpr rfl, rfl⟩⟩
  obtain ⟨c, ok, written, -⟩ :=
    compiled_schema_meaning ⟨fun _ => ⟨[], true, .declared⟩, 0⟩ .standard wellFormed
  refine ⟨c, ok, (written _ _).mpr ?_⟩
  have byte : ∀ S : Schema, S.Written "Int8" (.scalar .int8 7) [7] := fun _ => .scalar 7 spelled
  have members : ∀ S : Schema,
      S.WrittenMembers [.member "x" "Int8"] [("x", .scalar .int8 7)] ([7] ++ []) :=
    fun S => .cons rfl rfl (byte S) .nil
  have record : ∀ S : Schema, .mk none "P" [.member "x" "Int8"] ∈ S.types →
      S.Written "P" (.record "P" [("x", .scalar .int8 7)]) [7] :=
    fun S mem => .record mem (members S)
  have all := Schema.WrittenAll.cons (record ⟨"P[]", 0, [.mk none "P" [.member "x" "Int8"]]⟩
    (List.mem_singleton.mpr rfl)) .nil
  exact .sequence (.list _) (by decide) all

end SchemaCodec.Engine
