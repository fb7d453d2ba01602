import SchemaCodec.Proofs.Engine.Compilation
import SchemaCodec.Proofs.Engine.ExactSize
import SchemaCodec.Proofs.Plan.Graphs
import SchemaCodec.Proofs.Registry.Acquaintance

/-! # Declaring members in another order

An engine that was told of a type graph, and of nothing else, compiles the schema extracted from the
graph to the plan of the graph. So the order in which members are declared leaves no trace in what is
written.
-/

namespace SchemaCodec

open SchemaCodec.Action Descriptor Discovery

namespace Engine

/-! ## Engines that are told of a graph -/

def Operation.Introduces (C : Catalog) (root : Descriptor) : Operation → Prop
  | declare d | extract d => Reaches C root d
  | schemaOf t | register t => Reaches C root t.describe
  | _ => False

/-- The engine is new, but for calls that made types of the graph known, among them a record of every
name. -/
structure Introduced (C : Catalog) (limits : Limits) (root : Descriptor) (e : Engine) : Prop where
  calls : ∃ ops, e = after ops (fresh C limits) ∧ ∀ op ∈ ops, op.Introduces C root
  complete : ∀ r, Reaches C root r → r.isRecord = true → e.registry.Declares r.name

/-- The engine has compiled nothing, and it knows nothing but types of the graph. -/
structure Told (C : Catalog) (limits : Limits) (root : Descriptor) (e : Engine) : Prop where
  catalog_eq : e.catalog = C
  limits_eq : e.limits = limits
  compiled : e.compiled = .empty
  registry : e.registry.Acquainted C root

variable {C C' : Catalog} {limits : Limits} {root root' d : Descriptor} {e e' : Engine}
  {ext ext' : Extraction} {op : Operation}

theorem told_extract (reached : Reaches C root d) :
    (extract d).Keeps (Told C limits root) (fun _ => True) fun _ => True := by
  refine keeps_extract (fun e he ext extracted => ⟨trivial, ?_⟩) fun _ _ _ _ => trivial
  rw [he.catalog_eq] at extracted ⊢
  have found := (closed_records (hereditary_reaches C root) reached
    (Extraction.ofDescriptor_eq_ok extracted).1).1
  have declared : (declareAll C ext.records).Keeps (Registry.Acquainted C root) (fun _ => True)
      fun _ => True :=
    Registry.keeps_declareAll fun r hr _ =>
      Registry.keeps_declare fun _ known _ => known.declare (found r hr).2.1
  exact declared.within (fun _ he => he.registry) fun _ _ known he => { he with registry := known }

theorem told_schemaOf {t : MessageType} (reached : Reaches C root t.describe) :
    (schemaOf t).Keeps (Told C limits root) (fun _ => True) fun _ => True :=
  keeps_schemaOf
    (fun _ => keeps_modify fun _ he => ⟨he.catalog_eq, he.limits_eq, he.compiled, he.registry⟩)
    (fun _ _ _ _ => trivial) (told_extract reached) (fun _ _ => trivial)
    fun _ _ he _ => ⟨he.catalog_eq, he.limits_eq, he.compiled, he.registry⟩

theorem told_introduces (h : op.Introduces C root) : op.Preserves (Told C limits root) := by
  cases op with
  | declare d =>
    have declared : (Registry.declare d).Keeps (Registry.Acquainted C root) (fun _ => True)
        fun _ => True := Registry.keeps_declare fun _ known _ => known.declare h
    exact declared.within (fun _ he => he.registry) fun _ _ known he => { he with registry := known }
  | extract d => exact told_extract h
  | schemaOf t => exact told_schemaOf h
  | register t => exact told_schemaOf h
  | _ => exact h.elim

theorem Introduced.told (h : Introduced C limits root e) : Told C limits root e := by
  obtain ⟨ops, rfl, introduces⟩ := h.calls
  exact after_preserves ⟨rfl, rfl, rfl, Registry.acquainted_empty C root⟩ fun op hop =>
    told_introduces (introduces op hop)

theorem introduced_extract (definite : Definite C root)
    (declared : ∀ r, Reaches C root r → r.isRecord = true → r.origin C ≠ .synthesized)
    (extracted : Extraction.ofDescriptor C root = .ok ext) (limits : Limits) :
    Introduced C limits root (after [.extract root] (fresh C limits)) where
  calls := ⟨_, rfl, fun op hop => by
    obtain rfl := List.mem_singleton.mp hop
    exact .root⟩
  complete := by
    have found := (Extraction.ofDescriptor_eq_ok extracted).1
    obtain ⟨closed, -⟩ := reached_of_definite definite found
    intro r reached isRecord
    obtain ⟨r', hr', same⟩ := List.mem_map.mp
      ((mem_names_of_definite definite found).mpr ⟨r, reached, isRecord, rfl⟩)
    obtain ⟨isRecord', reached', -⟩ := closed r' hr'
    have ends : (extract root).Ends (fresh C limits)
        (fun _ e' => e'.registry.Declares r.name) fun _ _ => False := by
      unfold extract
      rw [ends_bind, ends_get, ends_bind, ends_ofExcept]
      refine ⟨fun ext' accepted => ?_, fun err failed => ?_⟩
      · obtain rfl := Except.ok.inj (extracted.symm.trans accepted)
        rw [ends_bind, ends_report, ends_bind, ends_resolving]
        refine (Registry.ends_declareAll_declares C ext.records _).mono ?_ fun _ _ no => no
        rintro _ registry ⟨-, all⟩
        exact same ▸ all r' hr' (declared r' reached' isRecord')
      · cases extracted.symm.trans failed
    exact ends.state (fun _ _ known => known) fun _ _ no => no.elim

/-! ## Compiling the schema of a graph -/

/-- The engine knows the graph and nothing else, and its codings have the plans of the graph. -/
structure Charted (C : Catalog) (limits : Limits) (root : Descriptor) (e : Engine) : Prop where
  catalog_eq : e.catalog = C
  limits_eq : e.limits = limits
  registry : e.registry.Acquainted C root
  complete : ∀ r, Reaches C root r → r.isRecord = true → e.registry.Declares r.name
  own : ∀ name c, e.compiled.get? name = some c → c.typeName = name ∧ c.limits = limits
  keyed : Plan.Keyed C root e.plan?

theorem Introduced.charted (h : Introduced C limits root e) : Charted C limits root e where
  catalog_eq := h.told.catalog_eq
  limits_eq := h.told.limits_eq
  registry := h.told.registry
  complete := h.complete
  own := by
    intro name c held
    rw [h.told.compiled] at held
    cases held
  keyed := by
    intro name plan held
    rw [plan?, h.told.compiled] at held
    cases held

theorem Charted.registry_eq (h : Charted C limits root e) {r : Registry}
    (known : r.Acquainted C root) (same : r.declared = e.registry.declared) :
    Charted C limits root { e with registry := r } :=
  { h with
    registry := known
    complete := fun x reached isRecord => by
      rw [Registry.Declares, same]
      exact h.complete x reached isRecord }

theorem Charted.note (h : Charted C limits root e) {r : Descriptor} {plan : Plan}
    (reached : Reaches C root r) (isRecord : r.isRecord = true) (coded : CodedBy C root r plan) :
    Charted C limits root (e.note ⟨r.name, plan, e.limits⟩) :=
  { h with
    own := by
      intro name c held
      rcases Cache.get?_add_eq_some held with old | ⟨-, rfl, rfl⟩
      · exact h.own name c old
      · exact ⟨rfl, h.limits_eq⟩
    keyed := by
      intro name plan' held
      obtain ⟨c, noted, rfl⟩ := plan?_eq_some.mp held
      rcases Cache.get?_add_eq_some noted with old | ⟨-, rfl, rfl⟩
      · exact h.keyed name _ (plan?_eq_some.mpr ⟨c, old, rfl⟩)
      · exact ⟨r, reached, isRecord, rfl, coded⟩ }

theorem Charted.counters_eq (h : Charted C limits root e) (counters : Counters) :
    Charted C limits root { e with counters := counters } :=
  { h with }

section Graph

variable (clear : Clear C root) (wellNamed : WellNamed C root) (definite : Definite C root)

include clear wellNamed definite

theorem Charted.ends_node (h : Charted C limits root e) {found : List Descriptor} {r : Descriptor}
    (isRecord : r.isRecord = true) (reached : Reaches C root r) (closed : Closed C found r)
    (needs : ∀ need ∈ Extraction.needs C r, ∃ plan, e.plan? need = some plan) :
    (Registry.resolveNode (Extraction.entry C r).node).Ends e.registry
      (fun d registry => ∃ plan,
        Plan.ofNode e.plan? e.catalog (Extraction.entry C r).node d = .ok plan ∧
          Charted C limits root (Engine.note { e with registry := registry }
            ⟨(Extraction.entry C r).node.typeName, plan, e.limits⟩))
      fun _ _ => False := by
  have own : (Extraction.entry C r).node.typeName = r.name := rfl
  have resolved := h.registry.ends_resolveNode clear wellNamed reached isRecord
    (h.complete r reached isRecord) own
  refine resolved.mono ?_ fun _ _ no => no
  rintro d registry ⟨known, same, reached', isRecord', named⟩
  have served : ∀ m ∈ r.members C, Plan.Served e.plan? m.2 := by
    intro m mem
    rcases closed.covered m mem with leaf | ⟨record, -⟩
    · exact .inl leaf
    · exact .inr ⟨record, wellNamed _ (reached.member mem).innermost record,
        needs _ (Extraction.mem_needs mem record)⟩
  obtain ⟨plan, chosen, coded⟩ := Plan.exists_ofNode h.keyed
    (definite r d reached reached' isRecord isRecord' named.symm) named.symm reached' isRecord'
    closed.unique served
  have noted := (h.registry_eq known same).note reached' isRecord' coded
  rw [named] at noted
  exact ⟨plan, h.catalog_eq ▸ chosen, noted⟩

theorem Charted.ends_compileNodes (h : Charted C limits root e)
    (extracted : Extraction.ofDescriptor C root = .ok ext) :
    (compileNodes ext.schema.types).Ends e
      (fun _ e' => Charted C limits root e' ∧ Plan.Served e'.plan? root) fun _ _ => False := by
  obtain ⟨found, -, entries, types, order, perm⟩ := Extraction.ofDescriptor_eq_ok extracted
  obtain ⟨closed, covered⟩ := reached_of_definite definite found
  rw [types]
  refine (ends_compileNodes_inOrder (I := Charted C limits root) order ?_ h
    fun _ no => nomatch no).mono ?_ fun _ _ no => no
  · intro en hen e he needs
    obtain ⟨r, hr, rfl⟩ := List.mem_map.mp (perm.mem_iff.mp hen)
    obtain ⟨isRecord, reached, closed_r⟩ := closed r hr
    exact he.ends_node clear wellNamed definite isRecord reached closed_r needs
  · rintro _ e' ⟨h', done⟩
    refine ⟨h', ?_⟩
    rcases covered root .root with leaf | ⟨isRecord, r, hr, same⟩
    · exact .inl leaf
    · have listed : Extraction.entry C r ∈ entries :=
        perm.mem_iff.mpr (List.mem_map.mpr ⟨r, hr, rfl⟩)
      exact .inr ⟨isRecord, wellNamed _ (reaches_innermost C root) isRecord, same ▸ done _ listed⟩

omit definite in
/-- The root is coded by the plan of the graph for its name: that of the root, if it is a record, and
otherwise that of as many arrays as it has sequences. -/
theorem Charted.ends_codecOfRoot (h : Charted C limits root e) (served : Plan.Served e.plan? root)
    {S : Schema} (named : S.typeName = root.name) :
    (codecOfRoot S).Ends e
      (fun c _ => c.typeName = root.name ∧ c.limits = limits ∧ ∃ base levels,
        Twin base root.innermost ∧ root.name = TypeName.arrays root.innermost.name levels ∧
        CodedBy C root (base.arrays levels) c.plan)
      fun _ _ => False := by
  rw [codecOfRoot, ends_bind, ends_get, named]
  by_cases isRecord : root.isRecord = true
  · have inner := innermost_of_isRecord isRecord
    obtain ⟨plan, chosen, coded⟩ := Plan.exists_chosen h.keyed served
    obtain ⟨c, held, rfl⟩ := plan?_eq_some.mp (chosen.of_isRecord isRecord)
    rw [held, inner]
    exact ⟨(h.own _ c held).1, (h.own _ c held).2, root, 0, .refl root, rfl, coded⟩
  · have reached := reaches_innermost C root
    have leaf := root.innermost_innermost
    obtain ⟨levels, same⟩ := root.exists_arrays
    cases held : e.compiled.get? root.name with
    | some c =>
      obtain ⟨r, reached_r, isRecord_r, own, -⟩ :=
        h.keyed root.name c.plan (plan?_eq_some.mpr ⟨c, held, rfl⟩)
      have twin := clear.twin_of_name_eq wellNamed reached_r (innermost_of_isRecord isRecord_r)
        .root own.symm
      exact absurd (twin.symm.alike.isRecord isRecord_r) isRecord
    | none =>
      have resolved := h.registry.ends_resolve clear wellNamed reached leaf
        (h.complete _ reached) levels
      rw [← same] at resolved
      dsimp only
      rw [ends_bind, resolve, ends_resolving]
      refine resolved.mono ?_ fun _ _ no => no
      rintro _ registry ⟨-, -, base, -, twin, rfl⟩
      obtain ⟨plan, chosen, coded⟩ := Plan.exists_chosen h.keyed (served.arrays twin levels)
      have own : (base.arrays levels).name = root.name := by
        rw [name_arrays, twin.alike.name_eq, same]
      rw [own] at chosen
      rw [if_neg]
      · exact (ends_compileRoot_new (e := { e with registry := registry }) held chosen).mpr
          ⟨rfl, h.limits_eq, base, levels, twin, same, coded⟩
      · intro isRecord'
        obtain ⟨c, held', -⟩ := plan?_eq_some.mp (chosen.of_isRecord isRecord')
        cases held.symm.trans held'

theorem Introduced.ends_codecOfSchema (h : Introduced C limits root e)
    (extracted : Extraction.ofDescriptor C root = .ok ext) :
    (codecOfSchema ext.schema).Ends e
      (fun c _ => c.typeName = root.name ∧ c.limits = limits ∧ ∃ base levels,
        Twin base root.innermost ∧ root.name = TypeName.arrays root.innermost.name levels ∧
        CodedBy C root (base.arrays levels) c.plan)
      fun _ _ => False := by
  have named : ext.schema.typeName = root.name := (Extraction.ofDescriptor_eq_ok extracted).2.1
  have new : e.compiled.get? ext.schema.typeName = none := by
    rw [h.told.compiled]
    rfl
  rw [ends_codecOfSchema_new new]
  refine ((h.charted.counters_eq _).ends_compileNodes clear wellNamed definite extracted).mono ?_
    fun _ _ no => no
  rintro _ e' ⟨h', served⟩
  exact h'.ends_codecOfRoot clear wellNamed served named

end Graph

/-- Engines that are told of graphs which differ in the order of declaration only compile the
extracted schemas to the same coding. -/
theorem exists_codec_of_rearranged (rearranged : Rearranged C C' root root')
    (clear : Clear C root) (wellNamed : WellNamed C root)
    (extracted : Extraction.ofDescriptor C root = .ok ext)
    (extracted' : Extraction.ofDescriptor C' root' = .ok ext')
    (h : Introduced C limits root e) (h' : Introduced C' limits root' e') :
    ∃ c, (codecOfSchema ext.schema e).result = .ok c ∧
      (codecOfSchema ext'.schema e').result = .ok c := by
  have back := rearranged.symm
  obtain ⟨c, result, named, bounds, base, levels, twin, marks, coded⟩ :=
    (h.ends_codecOfSchema clear wellNamed rearranged.definite extracted).result
  obtain ⟨c', result', named', bounds', base', levels', twin', marks', coded'⟩ :=
    (h'.ends_codecOfSchema (rearranged.clear clear) (rearranged.wellNamed wellNamed)
      back.definite extracted').result
  have inner := rearranged.twin.innermost
  have atomic := clear.atomic wellNamed (reaches_innermost C root) root.innermost_innermost
  have same := rearranged.twin.alike.name_eq
  rw [marks, marks', ← inner.alike.name_eq] at same
  obtain ⟨-, rfl⟩ := TypeName.arrays_inj atomic atomic same
  have plans := coded.unique rearranged coded'
    (((twin.trans inner).trans twin'.symm).arrays levels)
  obtain ⟨name, plan, own⟩ := c
  obtain ⟨name', plan', own'⟩ := c'
  obtain rfl : name = name' :=
    named.trans (rearranged.twin.alike.name_eq.trans named'.symm)
  obtain rfl : own = own' := bounds.trans bounds'.symm
  obtain rfl : plan = plan' := plans
  exact ⟨_, result, result'⟩

/-- The order in which the members of records are declared does not matter: both graphs are extracted
or neither is, the schemas list the same nodes, each in an order in which records come after those
that they embed, and every value has the same bytes and the same size under both of them, or is
refused for the same reason. -/
theorem declaration_order_irrelevant (rearranged : Rearranged C C' root root')
    (bounded : Bounded C root) (bounded' : Bounded C' root') (wellNamed : WellNamed C root) :
    ((∃ ext, Extraction.ofDescriptor C root = .ok ext) ↔
      ∃ ext', Extraction.ofDescriptor C' root' = .ok ext') ∧
    ∀ ext ext', Extraction.ofDescriptor C root = .ok ext →
      Extraction.ofDescriptor C' root' = .ok ext' →
      ext.schema.typeName = ext'.schema.typeName ∧
      ext.schema.types.Perm ext'.schema.types ∧ ext.schema.Arranged ∧ ext'.schema.Arranged ∧
      ∀ limits e e', Introduced C limits root e → Introduced C' limits root' e' →
        (∃ c, (codecOfSchema ext.schema e).result = .ok c ∧
          (codecOfSchema ext'.schema e').result = .ok c) ∧
        ∀ v, (serializeValue ext.schema v e).result = (serializeValue ext'.schema v e').result ∧
          (valueSize ext.schema v e).result = (valueSize ext'.schema v e').result := by
  refine ⟨⟨?_, ?_⟩, fun ext ext' extracted extracted' => ⟨?_, ?_, ?_, ?_, ?_⟩⟩
  · rintro ⟨ext, extracted⟩
    exact Extraction.exists_rearranged rearranged bounded bounded' extracted
  · rintro ⟨ext', extracted'⟩
    exact Extraction.exists_rearranged rearranged.symm bounded' bounded extracted'
  · rw [(Extraction.ofDescriptor_eq_ok extracted).2.1, rearranged.twin.alike.name_eq,
      (Extraction.ofDescriptor_eq_ok extracted').2.1]
  · exact Extraction.perm_types rearranged extracted extracted'
  · exact Extraction.arranged_of_wellNamed rearranged.definite wellNamed extracted
  · exact Extraction.arranged_of_wellNamed rearranged.symm.definite
      (rearranged.wellNamed wellNamed) extracted'
  · intro limits e e' h h'
    have clear := (Extraction.accepted_of_definite rearranged.definite bounded extracted).1
    obtain ⟨c, result, result'⟩ :=
      exists_codec_of_rearranged rearranged clear wellNamed extracted extracted' h h'
    refine ⟨⟨c, result, result'⟩, fun v => ⟨?_, ?_⟩⟩
    · rw [result_serializeValue, result_serializeValue, result, result']
    · rw [result_valueSize, result_valueSize, result, result']

def crossed : Catalog where
  declaration := fun id =>
    { Extraction.lines.declaration id with
      fields := (Extraction.lines.declaration id).fields.reverse }
  capacity := 2

theorem perm_crossed (id : RecordId) :
    (crossed.declaration id).fields.Perm (Extraction.lines.declaration id).fields :=
  List.reverse_perm _

theorem record_of_reaches_crossed {r : Descriptor}
    (reached : Reaches crossed Extraction.line.describe r) (isRecord : r.isRecord = true) :
    r = Extraction.line.describe ∨ r = Extraction.dot.describe :=
  Extraction.record_of_reaches_line (reached.of_declarations perm_crossed) isRecord

theorem rearranged_crossed :
    Rearranged Extraction.lines crossed Extraction.line.describe Extraction.line.describe := by
  refine rearranged_of_declarations perm_crossed (fun _ => rfl) ?_
  intro r r' reached reached' isRecord isRecord' same
  rcases Extraction.record_of_reaches_line reached isRecord with rfl | rfl <;>
    rcases Extraction.record_of_reaches_line reached' isRecord' with rfl | rfl
  · rfl
  · exact absurd same (by decide)
  · exact absurd same (by decide)
  · rfl

/-- A line has the same bytes if its members are declared the other way round. -/
theorem declaration_order_irrelevant_line : ∃ ext ext',
    Extraction.ofDescriptor Extraction.lines Extraction.line.describe = .ok ext ∧
    Extraction.ofDescriptor crossed Extraction.line.describe = .ok ext' ∧
    (Extraction.line.describe.members Extraction.lines).map Prod.fst = ["to", "from"] ∧
    (Extraction.line.describe.members crossed).map Prod.fst = ["from", "to"] ∧
    ext.schema.types.Perm ext'.schema.types ∧
    ∀ v, (serializeValue ext.schema v
        (after [.extract Extraction.line.describe] (fresh Extraction.lines .standard))).result =
      (serializeValue ext'.schema v
        (after [.extract Extraction.line.describe] (fresh crossed .standard))).result := by
  have bounded : Bounded Extraction.lines Extraction.line.describe := by
    refine ⟨["Line", "Dot"], by decide, fun r reached isRecord => ?_⟩
    rcases Extraction.record_of_reaches_line reached isRecord with rfl | rfl <;> decide
  have bounded' : Bounded crossed Extraction.line.describe := by
    refine ⟨["Line", "Dot"], by decide, fun r reached isRecord => ?_⟩
    rcases record_of_reaches_crossed reached isRecord with rfl | rfl <;> decide
  have wellNamed : WellNamed Extraction.lines Extraction.line.describe := by
    intro r reached isRecord
    rcases Extraction.record_of_reaches_line reached isRecord with rfl | rfl <;>
      exact ⟨TypeName.atomic_of_unbracketed (by decide), by decide⟩
  have declared : ∀ r, Reaches Extraction.lines Extraction.line.describe r → r.isRecord = true →
      r.origin Extraction.lines ≠ .synthesized := by
    intro r reached isRecord
    rcases Extraction.record_of_reaches_line reached isRecord with rfl | rfl <;> decide
  have declared' : ∀ r, Reaches crossed Extraction.line.describe r → r.isRecord = true →
      r.origin crossed ≠ .synthesized := by
    intro r reached isRecord
    rcases record_of_reaches_crossed reached isRecord with rfl | rfl <;> decide
  refine ⟨_, _, rfl, rfl, rfl, rfl, ?_⟩
  obtain ⟨-, agree⟩ :=
    declaration_order_irrelevant rearranged_crossed bounded bounded' wellNamed
  obtain ⟨-, nodes, -, -, alike⟩ := agree _ _ rfl rfl
  refine ⟨nodes, fun v => ?_⟩
  exact ((alike .standard _ _
    (introduced_extract rearranged_crossed.definite declared rfl .standard)
    (introduced_extract rearranged_crossed.symm.definite declared' rfl .standard)).2 v).1

end Engine

end SchemaCodec
