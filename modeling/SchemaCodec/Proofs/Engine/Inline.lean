import SchemaCodec.Proofs.Engine.SchemaCompilation
import SchemaCodec.Proofs.Registry.Inline
import SchemaCodec.Proofs.TypeName.Balance

/-! # Compiling schemas with definitions inside nodes

Resolving a schema makes the records that are defined inside nodes, while compiling it only visits
the listed nodes. So a schema that resolves is compiled just where every such definition repeats a
node before, and then it is coded like the schema that lists the definitions.
-/

namespace SchemaCodec

open SchemaCodec.Action

theorem Plan.ofNode_flat (compiled : String → Option Plan) (C : Catalog) (node : Node)
    (d : Descriptor) : ofNode compiled C node.flat d = ofNode compiled C node d := by
  have fields : ∀ members children, chooseFields compiled node.typeName members
      (children.map Node.reference) = chooseFields compiled node.typeName members children := by
    intro members children
    induction children with
    | nil => rfl
    | cons child others ih =>
      rw [List.map_cons, chooseFields, chooseFields, ih]
      rfl
  unfold ofNode
  cases d.members? C with
  | none => rfl
  | some members => exact congrArg (record node.typeName <$> ·) (fields members node.children)

theorem Plan.Chosen.compiled {compiled : String → Option Plan} {d : Descriptor} {name : String}
    {plan : Plan} (h : Chosen compiled d name plan) (wellFormed : TypeName.WellFormed name) :
    compiled name = some plan := by
  have bare := TypeName.element?_atomic wellFormed.toAtomic
  cases h with
  | scalar _ spelled => cases spelled.symm.trans wellFormed.foreign
  | text _ spelled => cases spelled.symm.trans wellFormed.foreign
  | record _ _ _ _ found => exact found
  | bulk element => cases element.symm.trans bare
  | elements element => cases element.symm.trans bare

namespace Engine

variable {S : Schema} {C K : Catalog} {limits : Limits} {before rest nodes : List Node}
  {names : List String} {e : Engine} {R : Error → Engine → Prop}

theorem ends_traverse_cons {node : Node} {P : Engine → Prop} :
    (Action.traverse resolveNode (node :: rest)).Ends e (fun _ e' => P e') R ↔
      (Registry.resolveNode node).Ends e.registry
        (fun _ r => (Action.traverse resolveNode rest).Ends { e with registry := r }
          (fun _ e' => P e') R)
        fun err r => R err { e with registry := r } := by
  have others : ∀ (d : Descriptor) (e : Engine),
      (do let ds ← Action.traverse resolveNode rest
          return d :: ds : Action Engine (List Descriptor)).Ends e (fun _ e' => P e') R ↔
        (Action.traverse resolveNode rest).Ends e (fun _ e' => P e') R := fun _ _ => ends_bind
  rw [Action.traverse, ends_bind, resolveNode, ends_resolving]
  simp only [others]

theorem ends_traverse_firsts {P : Engine → Prop} (prelisted : S.Prelisted)
    (split : S.types = before ++ rest)
    (same : ∀ name, name ∈ names ↔ name ∈ before.map Node.typeName)
    (held : ∀ name ∈ names, e.registry.Holds name) :
    (Action.traverse resolveNode rest).Ends e (fun _ e' => P e') R ↔
      (Action.traverse resolveNode (Schema.firsts names rest)).Ends e (fun _ e' => P e') R := by
  induction rest generalizing before names e with
  | nil => rfl
  | cons node rest ih =>
    have split' : S.types = (before ++ [node]) ++ rest := by rw [split, List.append_assoc]; rfl
    rw [Schema.firsts]
    by_cases again : node.typeName ∈ names
    · obtain ⟨d, known⟩ := held _ again
      rw [if_pos again, ends_traverse_cons, Registry.ends_resolveNode_held known]
      exact ih split' (Schema.known_next_iff again same) held
    · rw [if_neg again, ends_traverse_cons, ends_traverse_cons, Registry.ends_resolveNode_flat]
      · have kept := (Registry.ends_resolveNode_holds node.flat e.registry).and
          (Registry.ends_resolveNode_noted node.flat e.registry)
        refine ends_congr kept (fun d r both => ?_) fun _ _ _ => Iff.rfl
        refine ih split' (Schema.new_next_iff node same) fun name mem => ?_
        rcases List.mem_append.mp mem with old | last
        · exact both.1 name (held name old)
        · rw [List.mem_singleton.mp last]
          exact ⟨d, both.2⟩
      · intro c hc inhabited
        exact held _ ((same _).mpr
          (prelisted before node rest split (fun old => again ((same _).mpr old)) c hc inhabited))

/-- The engine holds the types of the names, and codings for them and no others. -/
structure Met (names : List String) (e : Engine) : Prop where
  held : ∀ name ∈ names, e.registry.Holds name
  compiled : ∀ name, name ∈ names ↔ ∃ c, e.compiled.get? name = some c

theorem met_fresh (C : Catalog) (limits : Limits) (counters : Counters) :
    Met [] { fresh C limits with counters := counters } where
  held := List.forall_mem_nil _
  compiled := fun name => ⟨fun no => absurd no List.not_mem_nil, fun ⟨_, no⟩ => by cases no⟩

theorem mem_next_iff (compiled : ∀ name, name ∈ names ↔ ∃ c, e.compiled.get? name = some c)
    (c : Codec) (name : String) :
    name ∈ names ++ [c.typeName] ↔ ∃ c', (e.note c).compiled.get? name = some c' := by
  rw [List.mem_append, compiled, List.mem_singleton]
  constructor
  · rintro (⟨c', found⟩ | rfl)
    · exact ⟨c', Cache.get?_add_of_some found _ _⟩
    · exact ⟨_, Cache.get?_add_self _ _ _⟩
  · rintro ⟨c', found⟩
    rcases Cache.get?_add_eq_some found with old | ⟨-, own, -⟩
    · exact .inl ⟨c', old⟩
    · exact .inr own

theorem Met.next (h : Met names e) {node : Node} {d : Descriptor} {r : Registry} {plan : Plan}
    (kept : ∀ name, e.registry.Holds name → r.Holds name)
    (noted : r.resolved.get? node.typeName = some d) :
    Met (names ++ [node.typeName])
      (note { e with registry := r } ⟨node.typeName, plan, e.limits⟩) where
  held := by
    intro name mem
    rcases List.mem_append.mp mem with old | last
    · exact kept name (h.held name old)
    · rw [List.mem_singleton.mp last]
      exact ⟨d, noted⟩
  compiled := mem_next_iff (e := { e with registry := r }) h.compiled
    ⟨node.typeName, plan, e.limits⟩

theorem ends_compileNodes_firsts {Q : Unit → Engine → Prop} (prelisted : S.Prelisted)
    (split : S.types = before ++ rest)
    (same : ∀ name, name ∈ names ↔ name ∈ before.map Node.typeName) (met : Met names e) :
    (compileNodes rest).Ends e Q R ↔ (compileNodes (Schema.firsts names rest)).Ends e Q R := by
  induction rest generalizing before names e with
  | nil => rfl
  | cons node rest ih =>
    have split' : S.types = (before ++ [node]) ++ rest := by rw [split, List.append_assoc]; rfl
    rw [Schema.firsts]
    by_cases again : node.typeName ∈ names
    · obtain ⟨c, known⟩ := (met.compiled _).mp again
      rw [if_pos again, ends_compileNodes_known known]
      exact ih split' (Schema.known_next_iff again same) met
    · have new : e.compiled.get? node.typeName = none :=
        Option.eq_none_iff_forall_not_mem.mpr fun c found => again ((met.compiled _).mpr ⟨c, found⟩)
      have inside : ∀ c ∈ node.children, c.children ≠ [] → e.registry.Holds c.typeName := by
        intro c hc inhabited
        exact met.held _ ((same _).mpr
          (prelisted before node rest split (fun old => again ((same _).mpr old)) c hc inhabited))
      have kept := (Registry.ends_resolveNode_holds node.flat e.registry).and
        (Registry.ends_resolveNode_noted node.flat e.registry)
      rw [if_neg again, ends_compileNodes_uncompiled new,
        @ends_compileNodes_uncompiled _ node.flat _ _ _ new, Registry.ends_resolveNode_flat inside]
      refine ends_congr kept (fun d r both => ?_) fun _ _ _ => Iff.rfl
      simp only [Plan.ofNode_flat, Node.typeName_flat]
      refine and_congr_left fun _ => forall_congr' fun plan => imp_congr_right fun _ => ?_
      exact ih split' (Schema.new_next_iff node same) (met.next both.1 both.2)

theorem ends_codecOfSchema_core {Q : Codec → Engine → Prop} (prelisted : S.Prelisted) :
    (codecOfSchema S).Ends (fresh C limits) Q R ↔
      (codecOfSchema S.core).Ends (fresh C limits) Q R := by
  rw [ends_codecOfSchema_new rfl, ends_codecOfSchema_new rfl]
  exact ends_compileNodes_firsts prelisted (List.nil_append _).symm (by simp) (met_fresh C limits _)

theorem ends_resolveSchema_core {Q : Descriptor → Engine → Prop} (prelisted : S.Prelisted) :
    (resolveSchema S).Ends (fresh C limits) Q R ↔
      (resolveSchema S.core).Ends (fresh C limits) Q R := by
  unfold resolveSchema
  rw [ends_bind, ends_bind]
  exact ends_traverse_firsts prelisted (List.nil_append _).symm (by simp) (List.forall_mem_nil _)

/-! ## What resolves -/

/-- Each node has children, which have names and refer to the nodes before it. -/
def Referring (nodes rest : List Node) : Prop :=
  ∀ front node back, rest = front ++ node :: back → node.children ≠ [] ∧
    (∀ c ∈ node.children, Schema.Refers (nodes ++ front) c.typeName) ∧
    ∃ names : List String, node.children.map Node.name = names.map some

theorem ends_traverse_regular (hS : S.Distinct)
    (childless : ∀ node ∈ S.types, ∀ c ∈ node.children, c.children = [])
    (regular : ∀ node ∈ S.types, ∀ c ∈ node.children, TypeName.Regular c.typeName)
    (split : S.types = nodes ++ rest) (known : e.registry.Knows nodes) :
    (Action.traverse resolveNode rest).Ends e
      (fun _ e' => e'.registry.Knows S.types ∧ Referring nodes rest) fun _ _ => True := by
  induction rest generalizing nodes e with
  | nil =>
    rw [List.append_nil] at split
    exact ⟨split ▸ known, fun front node back no => by cases front <;> cases no⟩
  | cons node rest ih =>
    obtain ⟨mem, sub, apart⟩ := apart_of_listed hS split
    have new : node ∉ nodes := fun old => apart node old rfl
    rw [ends_traverse_cons (P := fun e' => e'.registry.Knows S.types ∧ Referring nodes (node :: rest))]
    refine (Registry.ends_resolveNode_regular known hS sub mem new (childless node mem)
      (regular node mem)).mono ?_ fun _ _ _ => trivial
    rintro d r ⟨known', inhabited, refers, named⟩
    rw [List.append_cons] at split
    refine (ih split (e := { e with registry := r }) known').mono ?_ fun _ _ _ => trivial
    rintro _ e' ⟨all, later⟩
    refine ⟨all, fun front other back same => ?_⟩
    cases front with
    | nil =>
      obtain ⟨rfl, -⟩ := List.cons.inj same
      exact ⟨inhabited, by simpa using refers, named⟩
    | cons first front =>
      obtain ⟨rfl, tail⟩ := List.cons.inj same
      simpa using later front other back tail

/-- A schema that resolves is well formed up to what is listed again and what is defined inside. -/
theorem core_wellFormed (regular : S.Regular) (prelisted : S.Prelisted) {d : Descriptor}
    (resolves : (resolveSchema S (fresh C limits)).result = .ok d) : S.core.WellFormed := by
  have hS := regular.core_distinct
  have flat : ∀ node ∈ S.core.types, ∃ own ∈ S.types, node = own.flat :=
    fun node mem => (Schema.mem_firsts mem).2
  have childless : ∀ node ∈ S.core.types, ∀ c ∈ node.children, c.children = [] := by
    intro node mem c hc
    obtain ⟨own, -, rfl⟩ := flat node mem
    obtain ⟨child, -, rfl⟩ := List.mem_map.mp hc
    rfl
  have references : ∀ node ∈ S.core.types, ∀ c ∈ node.children, TypeName.Regular c.typeName := by
    intro node mem c hc
    obtain ⟨own, hown, rfl⟩ := flat node mem
    obtain ⟨child, hchild, rfl⟩ := List.mem_map.mp hc
    exact regular.regular own hown child hchild
  have run := (ends_resolveSchema_core (R := fun _ _ => False) prelisted).mp
    (ends_of_ok (Q := fun _ _ => True) resolves trivial)
  unfold resolveSchema at run
  rw [ends_bind] at run
  have nodes := ends_traverse_regular (e := fresh C limits) hS childless references
    (List.nil_append _).symm (reached_fresh S C limits).knows
  obtain ⟨_, -, rest, known, referring⟩ :=
    ((run.and nodes).mono (fun _ _ both => both) fun _ _ no => no.1).result
  rw [resolve, ends_resolving] at rest
  have root := Registry.ends_resolve_regular known hS (List.Subset.refl _) regular.rooted
  obtain ⟨_, -, -, -, rooted⟩ :=
    ((rest.and root).mono (fun _ _ both => both) fun _ _ no => no.1).result
  refine ⟨hS, fun node mem => ?_, fun node mem => ?_, ?_, rooted⟩
  · obtain ⟨before, after, split⟩ := List.append_of_mem mem
    exact (referring before node after split).1
  · obtain ⟨before, after, split⟩ := List.append_of_mem mem
    obtain ⟨-, -, names, named⟩ := referring before node after split
    refine ⟨names, named, ?_⟩
    obtain ⟨own, hown, rfl⟩ := flat node mem
    have distinct := regular.distinct own hown
    unfold Node.Distinct at distinct
    rw [← Node.map_name_reference, show own.children.map Node.reference = own.flat.children from rfl,
      named] at distinct
    exact .of_map some distinct
  · intro before node after split
    have refers := (referring before node after split).2.1
    rwa [List.nil_append] at refers

/-! ## What compiles -/

/-- Nodes are compiled only if what is defined inside the first of each name is compiled before. -/
theorem ends_compileNodes_repeats (regular : S.Regular) (split : S.types = before ++ rest)
    (same : ∀ name, name ∈ names ↔ name ∈ before.map Node.typeName)
    (compiled : ∀ name, name ∈ names ↔ ∃ c, e.compiled.get? name = some c) :
    (compileNodes rest).Ends e (fun _ _ => ∀ front node back, rest = front ++ node :: back →
      Schema.Repeats (before ++ front) node) fun _ _ => True := by
  induction rest generalizing before names e with
  | nil => exact fun front node back no => by cases front <;> cases no
  | cons node rest ih =>
    have mem : node ∈ S.types := split ▸ List.mem_append_right _ List.mem_cons_self
    have split' : S.types = (before ++ [node]) ++ rest := by rw [split, List.append_assoc]; rfl
    by_cases again : node.typeName ∈ names
    · obtain ⟨c, known⟩ := (compiled _).mp again
      rw [ends_compileNodes_known known]
      refine (ih split' (Schema.known_next_iff again same) compiled).mono ?_ fun _ _ _ => trivial
      exact fun _ _ later => Schema.repeats_cons (fun new => absurd ((same _).mp again) new) later
    · have new : e.compiled.get? node.typeName = none :=
        Option.eq_none_iff_forall_not_mem.mpr fun c found => again ((compiled _).mpr ⟨c, found⟩)
      rw [ends_compileNodes_uncompiled new]
      refine (keeps_trivial _ e.registry trivial).mono (fun d r _ => ?_) fun _ _ _ => trivial
      refine ⟨fun plan ok => ?_, fun _ _ => trivial⟩
      have own : Schema.Repeats before node := by
        intro _ child hchild inhabited
        obtain ⟨members, fields, -, -, all⟩ := Plan.ofNode_iff.mp ok
        obtain ⟨field, -, d', -, -, chosen⟩ := partner_right all hchild
        obtain ⟨c, held, -⟩ := plan?_eq_some.mp
          (chosen.compiled (regular.defined node mem child hchild inhabited))
        exact (same _).mp ((compiled _).mpr ⟨c, held⟩)
      refine (ih split' (Schema.new_next_iff node same) (mem_next_iff (e := { e with registry := r })
        compiled ⟨node.typeName, plan, e.limits⟩)).mono ?_ fun _ _ _ => trivial
      exact fun _ _ later => Schema.repeats_cons own later

theorem prelisted_of_compiled (regular : S.Regular) {c : Codec}
    (accepted : (codecOfSchema S (fresh C limits)).result = .ok c) : S.Prelisted := by
  have run : (codecOfSchema S).Ends (fresh C limits) (fun _ _ => True) fun _ _ => False :=
    ends_of_ok accepted trivial
  rw [ends_codecOfSchema_new rfl] at run
  have nodes := ends_compileNodes_repeats regular (List.nil_append _).symm (by simp)
    (met_fresh C limits ⟨0, 0, 0, 1⟩).compiled
  obtain ⟨_, -, -, repeats⟩ :=
    ((run.and nodes).mono (fun _ _ both => both) fun _ _ no => no.1).result
  exact fun before node after split => by simpa using repeats before node after split

theorem hoisted_prelisted (S : Schema) : S.hoisted.Prelisted := by
  intro before node after split _ child mem inhabited
  have listed : node ∈ S.hoisted.types := split ▸ List.mem_append_right _ List.mem_cons_self
  obtain ⟨own, -, listed⟩ := List.mem_flatMap.mp listed
  obtain ⟨_, rfl⟩ : ∃ n : Node, node = n.flat := by
    rcases List.mem_append.mp listed with inside | last
    · exact Node.flat_of_mem_definitions own node inside
    · exact ⟨own, List.mem_singleton.mp last⟩
  obtain ⟨_, -, rfl⟩ := List.mem_map.mp mem
  exact absurd rfl inhabited

/-- A schema that a new engine resolves is compiled by a new engine just where the definitions inside
nodes repeat names that are listed before. Where this holds at every depth, the schema has the very
coding of the one that lists each definition before the node around it. -/
theorem repeated_definitions {d : Descriptor} {limits' : Limits} (regular : S.Regular)
    (resolves : (resolveSchema S (fresh C limits)).result = .ok d) :
    ((∃ c, (codecOfSchema S (fresh K limits')).result = .ok c) ↔ S.Prelisted) ∧
      (S.Repeating → ∃ c, (codecOfSchema S (fresh K limits')).result = .ok c ∧
        (codecOfSchema S.hoisted (fresh K limits')).result = .ok c) := by
  have compiles : S.Prelisted → ∃ c, (codecOfSchema S.core).Ends (fresh K limits')
      (fun c' _ => c' = c) fun _ _ => False := by
    intro prelisted
    obtain ⟨c, ok, -⟩ :=
      (ends_codecOfSchema K limits' (core_wellFormed regular prelisted resolves)).result
    exact ⟨c, ends_of_ok ok rfl⟩
  have ofCore : ∀ {S' : Schema} {c : Codec}, S'.Prelisted → S'.core = S.core →
      (codecOfSchema S.core).Ends (fresh K limits') (fun c' _ => c' = c) (fun _ _ => False) →
      (codecOfSchema S' (fresh K limits')).result = .ok c := by
    intro S' c prelisted same run
    obtain ⟨_, ok, rfl⟩ := ((ends_codecOfSchema_core prelisted).mpr (same ▸ run)).result
    exact ok
  refine ⟨⟨fun ⟨c, ok⟩ => prelisted_of_compiled regular ok, fun prelisted => ?_⟩, fun repeating => ?_⟩
  · obtain ⟨c, run⟩ := compiles prelisted
    exact ⟨c, ofCore prelisted rfl run⟩
  · obtain ⟨c, run⟩ := compiles repeating.prelisted
    exact ⟨c, ofCore repeating.prelisted rfl run,
      ofCore (hoisted_prelisted S) (Schema.core_hoisted repeating) run⟩

/-- A record that brings the definition of the record in its member, after the listed nodes. -/
def embedding (listed : List Node) : Schema :=
  ⟨"Outer", 0, listed ++ [.mk none "Outer" [.mk (some "in") "Inner" [.member "x" "Int32"]]]⟩

theorem regular_embedding {listed : List Node}
    (plain : ∀ node ∈ listed, node = .mk none "Inner" [.member "x" "Int32"]) :
    (embedding listed).Regular := by
  have wellFormed : ∀ name ∈ ["Inner", "Outer"], TypeName.WellFormed name :=
    TypeName.wellFormed_of_balanced (by decide)
  have nodes : ∀ node ∈ (embedding listed).types, node = .mk none "Inner" [.member "x" "Int32"] ∨
      node = .mk none "Outer" [.mk (some "in") "Inner" [.member "x" "Int32"]] := by
    intro node mem
    exact (List.mem_append.mp mem).imp (plain node) List.mem_singleton.mp
  refine ⟨fun node mem => ?_, fun node mem => ?_, fun node mem child hchild => ?_,
    fun node mem child hchild inhabited => ?_, ⟨"Outer", 0, rfl, .inr (wellFormed _ (by simp))⟩⟩
  · rcases nodes node mem with rfl | rfl <;> exact wellFormed _ (by simp [Node.typeName])
  · rcases nodes node mem with rfl | rfl <;> exact List.nodup_singleton _
  · rcases nodes node mem with rfl | rfl <;> obtain rfl := List.mem_singleton.mp hchild
    · exact ⟨"Int32", 0, rfl, .inl ⟨.scalar .int32, by decide, by decide⟩⟩
    · exact ⟨"Inner", 0, rfl, .inr (wellFormed _ (by simp))⟩
  · rcases nodes node mem with rfl | rfl <;> obtain rfl := List.mem_singleton.mp hchild
    · exact absurd rfl inhabited
    · exact wellFormed "Inner" (by simp)

/-- With the inner record listed before, the definition in the member changes nothing. -/
theorem repeated_definitions_embedding :
    let S := embedding [.mk none "Inner" [.member "x" "Int32"]]
    let e := fresh ⟨fun _ => ⟨[], true, .declared⟩, 0⟩ .standard
    ∃ c, (codecOfSchema S e).result = .ok c ∧ (codecOfSchema S.hoisted e).result = .ok c := by
  intro S e
  have regular : S.Regular := regular_embedding fun _ => List.mem_singleton.mp
  have repeating : S.Repeating := by
    intro before node after split definition mem
    have types : [.mk none "Inner" [.member "x" "Int32"],
        .mk none "Outer" [.mk (some "in") "Inner" [.member "x" "Int32"]]] =
        before ++ node :: after := split
    rcases before with _ | ⟨first, _ | ⟨second, others⟩⟩
    · obtain ⟨rfl, -⟩ := List.cons.inj types
      cases mem
    · obtain ⟨rfl, rest⟩ := List.cons.inj types
      obtain ⟨rfl, -⟩ := List.cons.inj rest
      obtain rfl := List.mem_singleton.mp mem
      exact List.mem_singleton.mpr rfl
    · simp at types
  have resolves : (resolveSchema S e).result.isOk = true := by decide +kernel
  cases result : (resolveSchema S e).result with
  | ok d => exact (repeated_definitions regular result).2 repeating
  | error err =>
    rw [result] at resolves
    cases resolves

/-- Without it, the type is made from the definition in the member, and the coding is refused. -/
theorem definition_not_compiled :
    let S := embedding []
    let e := fresh ⟨fun _ => ⟨[], true, .declared⟩, 0⟩ .standard
    S.Regular ∧ (resolveSchema S e).result.isOk = true ∧
      (codecOfSchema S e).result.map Codec.typeName = .error (.orderingViolation "Outer" "Inner") ∧
      (codecOfSchema S.hoisted e).result.isOk = true :=
  ⟨regular_embedding (List.forall_mem_nil _), by decide +kernel⟩

end Engine

end SchemaCodec
