import SchemaCodec.Proofs.Engine.Guide
import SchemaCodec.Value.Equality

/-! # One layout for each schema

A schema is compiled from its own nodes, while a type known by name is compiled from a schema that
is extracted from it. If the children of all nodes are in the order of their names, both ways lead
to the same codings, so it does not matter which of them was gone first.
-/

namespace SchemaCodec

open SchemaCodec.Action

theorem Extraction.map_name_children {C : Catalog} {record : Descriptor}
    (ascending : (record.members C).Pairwise (·.1 < ·.1)) :
    (children C record).map Node.name = (record.members C).map fun m => some m.1 := by
  have sorted : Fields.Sorted ((record.members C).map fun m => (m.1, m.2.name)) :=
    List.pairwise_map.mpr ascending
  show ((Fields.ofList ((record.members C).map fun m => (m.1, m.2.name))).map _).map _ = _
  rw [Fields.ofList_of_sorted sorted, List.map_map, List.map_map]
  rfl

namespace Engine

variable {C : Catalog} {limits : Limits} {S : Schema} {r : Registry} {K : Codings} {d : Descriptor}
  {c : Codec} {e f : Engine} {node : Node}

/-! ## Following the guide -/

/-- The engine knows what the guide knows, and it holds none but the guide's codings. -/
structure Follows (C : Catalog) (limits : Limits) (r : Registry) (K : Codings) (e : Engine) :
    Prop where
  catalog_eq : e.catalog = C
  limits_eq : e.limits = limits
  registry_eq : e.registry = r
  compiled : Codings.Included e.compiled.get? K

theorem Follows.note (h : Follows C limits r K e) (held : K c.typeName = some c) :
    Follows C limits r K (e.note c) := by
  refine ⟨h.catalog_eq, h.limits_eq, h.registry_eq, fun name c' found => ?_⟩
  rcases Cache.get?_add_eq_some found with old | ⟨-, rfl, rfl⟩
  · exact h.compiled name c' old
  · exact held

theorem follows_extract (filed : r.Filed d) :
    (extract d).Keeps (Follows C limits r K) (fun _ => True) fun full =>
      ∃ ext, Extraction.ofDescriptor C d = .ok ext ∧ full = ext.schema := by
  rintro e ⟨rfl, rfl, rfl, compiled⟩
  refine (ends_extract_filed filed).mono ?_ ?_
  · rintro _ _ ⟨rfl, extracted⟩
    exact ⟨⟨rfl, rfl, rfl, compiled⟩, extracted⟩
  · rintro _ _ ⟨rfl, -⟩
    exact ⟨⟨rfl, rfl, rfl, compiled⟩, trivial⟩

section Follow

variable (guide : Guide C limits S r K d c) (ordered : ∀ node ∈ S.types, node.Ordered)

include guide ordered

theorem Guide.coded_entry {record : Descriptor} (filed : r.Filed record)
    (isRecord : record.isRecord = true) {compiled : String → Option Plan}
    (within : Plan.Included compiled K.plan?) {plan : Plan}
    (ok : Plan.ofNode compiled C (Extraction.entry C record).node record = .ok plan) :
    K record.name = some ⟨record.name, plan, limits⟩ := by
  obtain ⟨-, -, -, held⟩ := filed.eq_built isRecord
  obtain ⟨node, mem, own⟩ := guide.listed record held isRecord
  obtain ⟨short, members, fields, held', coded, names, all⟩ := guide.realized node mem
  rw [own] at held' coded
  have made := Option.some.inj (held.symm.trans held')
  obtain ⟨known, fields', found, rfl, chosen⟩ := Plan.ofNode_iff.mp ok
  have same : record.members C = members := by rw [made]; rfl
  obtain rfl : members = known := by
    rw [made] at found
    exact Option.some.inj found
  obtain ⟨labels, children, ascending⟩ := ordered node mem
  have keys : members.map Prod.fst = labels := by
    refine List.map_injective_iff.mpr (Option.some_injective _) ?_
    rw [List.map_map, ← children, names]
    rfl
  have labelled : node.children.map Node.name = (Extraction.children C record).map Node.name := by
    rw [Extraction.map_name_children (same ▸ List.pairwise_map.mp (keys ▸ ascending)), same, names]
  obtain rfl := Plan.ChosenChild.unique all (chosen.imp fun _ _ c => c.mono within) labelled
  exact coded

theorem Guide.follows_compileNodes {nodes : List Node}
    (entries : ∀ node ∈ nodes, ∃ record, r.Filed record ∧ record.isRecord = true ∧
      node = (Extraction.entry C record).node) :
    (compileNodes nodes).Keeps (Follows C limits r K) (fun _ => True) fun _ => True := by
  induction nodes with
  | nil => exact keeps_pure trivial
  | cons node nodes ih =>
    obtain ⟨⟨record, filed, isRecord, rfl⟩, others⟩ := List.forall_mem_cons.mp entries
    intro e he
    cases found : e.compiled.get? (Extraction.entry C record).node.typeName with
    | some c' =>
      rw [ends_compileNodes_known found]
      exact ih others e he
    | none =>
      obtain ⟨rfl, rfl, rfl, compiled⟩ := he
      obtain ⟨-, -, -, held⟩ := filed.eq_built isRecord
      rw [ends_compileNodes_uncompiled found]
      refine Registry.ends_resolveNode ((Registry.ends_resolve_known held).mpr ?_)
      refine ⟨fun plan ok => ?_, fun _ _ => ⟨⟨rfl, rfl, rfl, compiled⟩, trivial⟩⟩
      have coded := guide.coded_entry ordered filed isRecord compiled.plans ok
      exact ih others _ (Follows.note ⟨rfl, rfl, rfl, compiled⟩ coded)

theorem Guide.follows_compileRound {again : Schema → Descriptor → Action Engine Codec}
    (kept : ∀ ext, Extraction.ofDescriptor C d = .ok ext →
      (again ext.schema d).Keeps (Follows C limits r K) (fun _ => True) fun _ => True)
    {ext : Extraction} (extracted : Extraction.ofDescriptor C d = .ok ext) :
    (compileRound again ext.schema (some d)).Keeps (Follows C limits r K) (fun _ => True)
      fun _ => True := by
  obtain ⟨found, same, -⟩ := Extraction.ofDescriptor_eq_ok extracted
  have records :=
    (Discovery.closed_records (Registry.hereditary_filed C r) guide.filed found).1
  refine (guide.follows_compileNodes ordered fun node mem => ?_).bind fun _ _ =>
    keeps_get.bind fun e he => ?_
  · obtain ⟨record, hr, rfl⟩ := (Extraction.mem_types extracted).mp mem
    exact ⟨record, (records record hr).2.1, (records record hr).1, rfl⟩
  · split
    · exact keeps_pure trivial
    · refine (keeps_pure (P := fun d' => d' = d) rfl).bind ?_
      rintro _ rfl
      split
      · refine (follows_extract guide.filed).bind ?_
        rintro _ ⟨full, extracted', rfl⟩
        split
        · exact keeps_fail trivial
        · exact kept full extracted'
      · next other =>
        rw [same]
        intro e he
        unfold compileRoot
        rw [ends_bind, ends_get, ends_bind, ends_ofExcept]
        refine ⟨fun plan chosen => ?_, fun _ _ => ⟨he, trivial⟩⟩
        obtain ⟨direct, -, coded⟩ := guide.direct other
        obtain rfl := ((Plan.choose_iff.mp chosen).mono he.compiled.plans).unique direct
        rw [ends_bind, ends_report, ends_keep_held, he.limits_eq]
        exact ⟨he.note coded, trivial⟩

theorem Guide.follows_codecOfName :
    (codecOfName S.typeName).Keeps (Follows C limits r K) (fun _ => True) fun _ => True := by
  refine keeps_get.bind fun e he => ?_
  split
  · exact keeps_pure trivial
  · have resolves : (resolve S.typeName).Keeps (Follows C limits r K) (fun _ => True)
        fun d' => d' = d := by
      rintro e ⟨rfl, rfl, rfl, compiled⟩
      rw [resolve, ends_resolving, Registry.ends_resolve_known guide.resolved]
      exact ⟨⟨rfl, rfl, rfl, compiled⟩, rfl⟩
    refine resolves.bind ?_
    rintro _ rfl
    refine (follows_extract guide.filed).bind ?_
    rintro _ ⟨ext, extracted, rfl⟩
    refine guide.follows_compileRound ordered (fun full extracted' => ?_) extracted
    exact guide.follows_compileRound ordered (fun _ _ => keeps_fail trivial) extracted'

end Follow

theorem included_note (less : Codings.Included e.compiled.get? f.compiled.get?)
    (held : f.compiled.get? c.typeName = some c) :
    Codings.Included (e.note c).compiled.get? f.compiled.get? := by
  intro name c' found
  rcases Cache.get?_add_eq_some found with old | ⟨-, rfl, rfl⟩
  · exact less _ _ old
  · exact held

theorem exists_first_of_run {nodes : List Node}
    (run : (compileNodes (node :: nodes)).Ends e (fun _ e' => Codings.Included e'.compiled.get? K ∧
      e'.registry.resolved.Extends r.resolved) fun _ _ => False)
    (new : e.compiled.get? node.typeName = none) :
    ∃ d plan r₁, r.resolved.get? node.typeName = some d ∧
      Plan.ofNode e.plan? e.catalog node d = .ok plan ∧
      K node.typeName = some ⟨node.typeName, plan, e.limits⟩ ∧
      (compileNodes nodes).Ends (note { e with registry := r₁ } ⟨node.typeName, plan, e.limits⟩)
        (fun _ e' => Codings.Included e'.compiled.get? K ∧
          e'.registry.resolved.Extends r.resolved) fun _ _ => False := by
  rw [ends_compileNodes_uncompiled new] at run
  obtain ⟨d, -, ⟨accepted, refused⟩, noted⟩ :=
    ((run.and (Registry.ends_resolveNode_noted node e.registry)).mono
      (fun _ _ both => both) fun _ _ no => no.1).result
  generalize (Registry.resolveNode node e.registry).state = r₁ at accepted refused noted
  cases chosen : Plan.ofNode e.plan? e.catalog node d with
  | error err => exact (refused err chosen).elim
  | ok plan =>
    have rest := accepted plan chosen
    obtain ⟨_, -, ⟨⟨more, extends_r⟩, grown⟩, -⟩ :=
      (((ends_grown (writes_compileNodes nodes) rest).and rest).mono (fun _ _ both => both)
        fun _ _ no => no.2).result
    have coded := get?_note (e := { e with registry := r₁ }) (c := ⟨node.typeName, plan, e.limits⟩)
      new
    exact ⟨d, plan, r₁, extends_r.get? (grown.resolved.get? noted), chosen,
      more _ _ (grown.compiled.get? coded), rest⟩

/-- An engine that has gone further on the same way can go all of it. -/
theorem Follows.ends_compileNodes {nodes : List Node}
    (run : (compileNodes nodes).Ends e (fun _ e' => Codings.Included e'.compiled.get? K ∧
      e'.registry.resolved.Extends r.resolved) fun _ _ => False)
    (catalog_eq : e.catalog = C) (limits_eq : e.limits = limits)
    (less : Codings.Included e.compiled.get? f.compiled.get?) (h : Follows C limits r K f) :
    (compileNodes nodes).Ends f (fun _ f' => Follows C limits r K f') fun _ _ => False := by
  induction nodes generalizing e f with
  | nil => exact h
  | cons node nodes ih =>
    cases known : e.compiled.get? node.typeName with
    | some c' =>
      rw [ends_compileNodes_known known] at run
      rw [ends_compileNodes_known (less _ _ known)]
      exact ih run catalog_eq limits_eq less h
    | none =>
      obtain ⟨d, plan, r₁, held, chosen, coded, rest⟩ := exists_first_of_run run known
      rw [limits_eq] at rest coded
      cases known' : f.compiled.get? node.typeName with
      | some c' =>
        -- The other engine was here before, and all that it holds agrees with the guide.
        have same := (h.compiled _ _ known').symm.trans coded
        rw [ends_compileNodes_known known']
        exact ih rest catalog_eq rfl (included_note less (known'.trans same)) h
      | none =>
        obtain ⟨rfl, rfl, rfl, compiled⟩ := h
        rw [ends_compileNodes_uncompiled known']
        refine Registry.ends_resolveNode ((Registry.ends_resolve_known held).mpr ?_)
        have chosen' : Plan.ofNode f.plan? f.catalog node d = .ok plan :=
          Plan.ofNode_mono less.plans (catalog_eq ▸ chosen)
        refine ⟨fun other ok => ?_, fun err failed => ?_⟩
        · obtain rfl := Except.ok.inj (chosen'.symm.trans ok)
          have less' := included_note (c := ⟨node.typeName, plan, f.limits⟩)
            (fun _ _ found => Cache.get?_add_of_some (less _ _ found) _ _) (get?_note known')
          exact ih rest catalog_eq rfl less' (Follows.note ⟨rfl, rfl, rfl, compiled⟩ coded)
        · cases chosen'.symm.trans failed

section Root

variable (guide : Guide C limits S r K d c) (h : Follows C limits r K e)
  (compiled : ∀ node ∈ S.types, e.Compiles node.typeName)

include guide h compiled

theorem Guide.ends_extracted (isRecord : d.isRecord = true)
    (unlisted : ∀ node ∈ S.types, node.typeName ≠ S.typeName) :
    (codecOfRecord S.typeName d).Ends e (fun c' _ => c' = c) fun _ _ => False := by
  obtain ⟨rfl, rfl, rfl, within⟩ := h
  obtain ⟨ext, extracted, rooted⟩ := guide.extracts isRecord unlisted
  obtain ⟨root, rooted⟩ := Option.isSome_iff_exists.mp rooted
  obtain ⟨c', equipped⟩ := exists_equipped guide.filed isRecord guide.listed extracted compiled
  have held := equipped.1
  rw [(Extraction.ofDescriptor_eq_ok extracted).2.1] at held
  unfold codecOfRecord
  rw [ends_bind]
  refine (ends_extract_filed guide.filed).mono ?_ ?_
  · rintro _ _ ⟨rfl, ext', extracted', rfl⟩
    obtain rfl := Except.ok.inj (extracted.symm.trans extracted')
    rw [rooted]
    dsimp only
    rw [compileWithin, equipped.ends_compileRound]
    exact Option.some.inj ((within _ _ held).symm.trans (guide.record isRecord))
  · rintro err _ ⟨-, failed⟩
    cases extracted.symm.trans failed

theorem Guide.chosen_direct (other : ¬ d.isRecord = true) :
    Plan.Chosen e.plan? d S.typeName c.plan := by
  refine (guide.direct other).1.mono_at fun p isRecord coded => ?_
  have inner := (Registry.hereditary_filed C r).innermost d guide.filed
  obtain ⟨-, -, -, held⟩ := inner.eq_built isRecord
  obtain ⟨node, mem, own⟩ := guide.listed _ held isRecord
  obtain ⟨c', found⟩ := compiled node mem
  rw [own] at found
  obtain ⟨c'', here, rfl⟩ := Option.map_eq_some_iff.mp coded
  obtain rfl := Option.some.inj ((h.compiled _ _ found).symm.trans here)
  exact plan?_eq_some.mpr ⟨c', found, rfl⟩

theorem Guide.ends_codecOfRoot : (codecOfRoot S).Ends e (fun c' _ => c' = c) fun _ _ => False := by
  unfold codecOfRoot
  rw [ends_bind, ends_get]
  split
  · next c' found => exact guide.only c' (h.compiled _ _ found)
  · next missing =>
    have resolved := guide.resolved
    rw [← h.registry_eq] at resolved
    rw [resolve, ends_bind, ends_resolving, Registry.ends_resolve_known resolved]
    split
    · next isRecord =>
      exact guide.ends_extracted h compiled isRecord (unlisted_of_missing compiled missing)
    · next other =>
      rw [ends_compileRoot_new missing (guide.chosen_direct h compiled other), h.limits_eq]
      exact (guide.direct other).2.1.symm

end Root

/-- An engine that follows the guide has the coding of the guide for the schema. -/
theorem Guide.ends_codecOfSchema (guide : Guide C limits S r K d c)
    (h : Follows C limits r K e) :
    (codecOfSchema S).Ends e (fun c' _ => c' = c) fun _ _ => False := by
  cases found : e.compiled.get? S.typeName with
  | some c' =>
    rw [ends_codecOfSchema_known found]
    exact guide.only c' (h.compiled _ _ found)
  | none =>
    rw [ends_codecOfSchema_new found]
    obtain ⟨e₀, catalog_eq, limits_eq, empty, run⟩ := guide.compiles
    have nodes := Follows.ends_compileNodes run catalog_eq limits_eq
      (fun _ _ found => by rw [empty] at found; cases found)
      (⟨h.catalog_eq, h.limits_eq, h.registry_eq, h.compiled⟩ : Follows C limits r K
        { e with counters := { e.counters with compileMisses := e.counters.compileMisses + 1 } })
    refine (nodes.and (ends_compileNodes_listed S.types _)).mono ?_ fun _ _ no => no.1
    exact fun _ f ⟨follows, compiled⟩ => guide.ends_codecOfRoot follows compiled

/-! ## Either way -/

theorem result_deserializeValue (S : Schema) (bytes : List UInt8) (e : Engine) :
    (deserializeValue S bytes e).result = ((codecOfSchema S e).result >>= fun c =>
      (ofStateful c.decode (.ofBytes bytes)).result) := by
  show (deserializeValueFrom S (e, .ofBytes bytes)).result = _
  rw [deserializeValueFrom, result_bind]
  rfl

/-- If the children of all nodes are in the order of their names, a schema that a new engine accepts
has the same coding on an engine that has resolved the schema and read a value of its root by name.
So values are read and written alike on both. -/
theorem layout_independent (distinct : S.Distinct) (ordered : ∀ node ∈ S.types, node.Ordered)
    (accepted : (codecOfSchema S (fresh C limits)).result = .ok c) (other : List UInt8) :
    let e := after [.resolveSchema S, .deserializeNamed S.typeName other] (fresh C limits)
    (codecOfSchema S e).result = .ok c ∧
    (∀ bytes, (deserializeValue S bytes e).result =
      (deserializeValue S bytes (fresh C limits)).result) ∧
    ∀ v, (serializeValue S v e).result = (serializeValue S v (fresh C limits)).result := by
  intro e
  have named : ∀ node ∈ S.types, ∃ names : List String,
      node.children.map Node.name = names.map some ∧ names.Nodup := by
    intro node mem
    obtain ⟨names, children, ascending⟩ := ordered node mem
    exact ⟨names, children, ascending.imp fun less => String.ne_of_lt less⟩
  obtain ⟨d, -, K, guide, start⟩ := (ends_resolveSchema_guide distinct named accepted).result
  generalize resolved : (resolveSchema S (fresh C limits)).state = f at guide start
  have follows : Follows C limits f.registry K f := by
    rw [start]
    exact ⟨rfl, rfl, rfl, fun _ _ no => by cases no⟩
  have kept : (Operation.deserializeNamed S.typeName other).Preserves
      (Follows C limits f.registry K) := guide.follows_codecOfName ordered
  have same : (codecOfSchema S e).result = .ok c := by
    have later : e = (Operation.deserializeNamed S.typeName other).apply f := by
      rw [← resolved]
      rfl
    rw [later]
    obtain ⟨_, result, rfl⟩ := (guide.ends_codecOfSchema (kept.apply follows)).result
    exact result
  refine ⟨same, fun bytes => ?_, fun v => ?_⟩
  · rw [result_deserializeValue, result_deserializeValue, same, accepted]
  · rw [result_serializeValue, result_serializeValue, same, accepted]

/-- A record with a list of records is laid out alike on both engines. -/
theorem layout_independent_nested :
    let S : Schema := ⟨"P", 0, [.mk none "Q" [.member "x" "Int32"],
      .mk none "P" [.member "a" "Q[]", .member "b" "UInt8"]]⟩
    let new := fresh ⟨fun _ => ⟨[], true, .declared⟩, 9⟩ .standard
    let e := after [.resolveSchema S, .deserializeNamed "P" [0, 0, 0, 0, 0]] new
    (∀ bytes, (deserializeValue S bytes e).result = (deserializeValue S bytes new).result) ∧
    (serializeValue S (.record "P" [("a", .list [.record "Q" [("x", .scalar .int32 7)]]),
      ("b", .scalar .uint8 2)]) e).result.toOption = some [1, 0, 0, 0, 7, 0, 0, 0, 2] := by
  intro S new e
  have accepted : (codecOfSchema S new).result.isOk = true := by decide +kernel
  have distinct : S.Distinct := by
    refine ⟨fun node mem => ?_, by decide⟩
    rcases List.mem_cons.mp mem with rfl | mem
    · exact ⟨TypeName.atomic_of_unbracketed (by decide), by decide⟩
    · obtain rfl := List.mem_singleton.mp mem
      exact ⟨TypeName.atomic_of_unbracketed (by decide), by decide⟩
  have ordered : ∀ node ∈ S.types, node.Ordered := by
    intro node mem
    rcases List.mem_cons.mp mem with rfl | mem
    · exact ⟨["x"], rfl, by decide⟩
    · obtain rfl := List.mem_singleton.mp mem
      exact ⟨["a", "b"], rfl, by decide⟩
  cases result : (codecOfSchema S new).result with
  | error err =>
    rw [result] at accepted
    cases accepted
  | ok c =>
    obtain ⟨-, reads, writes⟩ := layout_independent distinct ordered result [0, 0, 0, 0, 0]
    refine ⟨reads, ?_⟩
    rw [writes]
    decide +kernel

/-- Children in another order are laid out as they are listed by the schema itself, and in the order
of their names once the root was read by name. -/
theorem layout_depends_on_order :
    let S : Schema := ⟨"P", 0, [.mk none "P" [.member "b" "Int32", .member "a" "UInt8"]]⟩
    let new := fresh ⟨fun _ => ⟨[], true, .declared⟩, 9⟩ .standard
    let e := after [.resolveSchema S, .deserializeNamed "P" [0, 0, 0, 0, 0]] new
    let v : Value := .record "P" [("a", .scalar .uint8 2), ("b", .scalar .int32 1)]
    ((serializeValue S v new).result.toOption, (serializeValue S v e).result.toOption) =
      (some [1, 0, 0, 0, 2], some [2, 1, 0, 0, 0]) ∧
    ((deserializeValue S [1, 0, 0, 0, 2] new).result.toOption.map v.same,
      (deserializeValue S [1, 0, 0, 0, 2] e).result.toOption.map v.same) =
      (some true, some false) := by
  decide +kernel

end Engine

end SchemaCodec
