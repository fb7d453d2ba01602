import SchemaCodec.Proofs.Engine.Assembly
import SchemaCodec.Proofs.Engine.Stability

/-! # What an accepted schema tells a new engine

From the run in which a new engine compiles a schema one reads off a guide: the types that resolving
the schema makes known, and the codings that belong to them. It guides every other engine that has
resolved the schema.
-/

namespace SchemaCodec

open SchemaCodec.Action

theorem Registry.Filed.name_ne {S : Schema} (hS : S.Distinct) {r : Registry} {d : Descriptor}
    (h : r.Filed d) (other : ¬ d.isRecord = true) {node : Node} (mem : node ∈ S.types) :
    d.name ≠ node.typeName := by
  intro same
  cases h with
  | primitive p =>
    have spelled := TypeName.ofSpelling?_name p
    exact hS.not_spelled mem (congrArg _ same.symm |>.trans spelled)
  | @sequence container element => exact hS.not_array mem element.name same.symm
  | record => exact other rfl

namespace Engine

variable {C : Catalog} {limits : Limits} {S : Schema} {r : Registry} {K : Codings} {d : Descriptor}
  {c : Codec} {e f : Engine}

/-- The registry knows the types of a schema, with `d` for its root, and the codings are those that
belong to the types. -/
structure Guide (C : Catalog) (limits : Limits) (S : Schema) (r : Registry) (K : Codings)
    (d : Descriptor) (c : Codec) : Prop where
  resolved : r.resolved.get? S.typeName = some d
  filed : r.Filed d
  listed : ∀ d', r.resolved.get? d'.name = some d' → d'.isRecord = true →
    ∃ node ∈ S.types, node.typeName = d'.name
  realized : ∀ node ∈ S.types, node.Realized r K limits
  only : ∀ c', K S.typeName = some c' → c' = c
  record : d.isRecord = true → K d.name = some c
  direct : ¬ d.isRecord = true → Plan.Chosen K.plan? d S.typeName c.plan ∧
    c = ⟨S.typeName, c.plan, limits⟩ ∧ K d.name = some ⟨d.name, c.plan, limits⟩
  extracts : d.isRecord = true → (∀ node ∈ S.types, node.typeName ≠ S.typeName) →
    ∃ ext, Extraction.ofDescriptor C d = .ok ext ∧ ext.schema.root?.isSome
  compiles : ∃ e₀ : Engine, e₀.catalog = C ∧ e₀.limits = limits ∧ e₀.compiled = .empty ∧
    (compileNodes S.types).Ends e₀ (fun _ e => Codings.Included e.compiled.get? K ∧
      e.registry.resolved.Extends r.resolved) fun _ _ => False

theorem ends_extract_filed (filed : e.registry.Filed d) : (extract d).Ends e
    (fun schema e' => e' = e ∧
      ∃ ext, Extraction.ofDescriptor e.catalog d = .ok ext ∧ schema = ext.schema)
    fun err e' => e' = e ∧ Extraction.ofDescriptor e.catalog d = .error err := by
  unfold extract
  rw [ends_bind, ends_get, ends_bind, ends_ofExcept]
  refine ⟨fun ext extracted => ?_, fun err failed => ⟨rfl, failed⟩⟩
  have found := (Extraction.ofDescriptor_eq_ok extracted).1
  have records := (Discovery.closed_records
    (Registry.hereditary_filed e.catalog e.registry) filed found).1
  have known : ∀ record ∈ ext.records, record.isRecord = true ∧ e.registry.Filed record :=
    fun record mem => ⟨(records record mem).1, (records record mem).2.1⟩
  rw [ends_bind, ends_report, ends_bind, ends_resolving,
    Registry.ends_declareAll_filed known]
  exact ⟨rfl, ext, extracted, rfl⟩

theorem exists_equipped (filed : r.Filed d) (isRecord : d.isRecord = true)
    (listed : ∀ d', r.resolved.get? d'.name = some d' → d'.isRecord = true →
      ∃ node ∈ S.types, node.typeName = d'.name)
    {ext : Extraction} (extracted : Extraction.ofDescriptor C d = .ok ext)
    (compiled : ∀ node ∈ S.types, e.Compiles node.typeName) : ∃ c, e.Equipped ext.schema c := by
  have all : ∀ d', r.Filed d' → d'.isRecord = true → e.Compiles d'.name := by
    intro d' filed' isRecord'
    obtain ⟨-, -, -, held⟩ := filed'.eq_built isRecord'
    obtain ⟨node, mem, same⟩ := listed d' held isRecord'
    exact same ▸ compiled node mem
  obtain ⟨found, same, -⟩ := Extraction.ofDescriptor_eq_ok extracted
  obtain ⟨c, held⟩ := all d filed isRecord
  refine ⟨c, by rw [same, held], fun node mem => ?_⟩
  obtain ⟨record, hr, rfl⟩ := (Extraction.mem_types extracted).mp mem
  obtain ⟨isRecord', filed', -⟩ :=
    (Discovery.closed_records (Registry.hereditary_filed C r) filed found).1 record hr
  exact all record filed' isRecord'

/-! ## Where the guide comes from -/

theorem ends_traverse_of_compileNodes {nodes : List Node} {P : Registry → Prop}
    (unique : (nodes.map Node.typeName).Nodup)
    (new : ∀ node ∈ nodes, e.compiled.get? node.typeName = none) (same : f.registry = e.registry)
    (h : (compileNodes nodes).Ends e (fun _ e' => P e'.registry) fun _ _ => False) :
    (Action.traverse resolveNode nodes).Ends f
      (fun _ f' => P f'.registry ∧ f' = { f with registry := f'.registry }) fun _ _ => False := by
  induction nodes generalizing e f with
  | nil => exact ⟨same ▸ h, rfl⟩
  | cons node nodes ih =>
    obtain ⟨apart, unique⟩ := List.nodup_cons.mp unique
    obtain ⟨first, others⟩ := List.forall_mem_cons.mp new
    rw [ends_compileNodes_uncompiled first] at h
    rw [Action.traverse, ends_bind, resolveNode, ends_resolving, same]
    refine h.mono ?_ fun _ _ no => no
    rintro d r ⟨accepted, refused⟩
    cases chosen : Plan.ofNode e.plan? e.catalog node d with
    | error err => exact (refused err chosen).elim
    | ok plan =>
      rw [ends_bind]
      refine (ih unique (fun other mem => ?_) ?_ (accepted plan chosen)).mono
        (fun _ _ done => done) fun _ _ no => no
      · refine (Cache.get?_add_of_ne ?_).trans (others other mem)
        exact fun equal => apart (List.mem_map.mpr ⟨other, mem, equal⟩)
      · rfl

/-- The nodes of the schema are compiled, and nothing else happened to a new engine. -/
structure Accepted (C : Catalog) (limits : Limits) (S : Schema) (e : Engine) : Prop
    extends Assembled S limits S.types e where
  catalog_eq : e.catalog = C
  run : ∃ e₀ : Engine, e₀.catalog = C ∧ e₀.limits = limits ∧ e₀.registry = .empty ∧
    e₀.compiled = .empty ∧ (compileNodes S.types).Ends e₀ (fun _ e' => e' = e) fun _ _ => False

theorem Accepted.compiles (h : Accepted C limits S e)
    (more : Codings.Included e.compiled.get? K) (grown : e.registry.resolved.Extends r.resolved) :
    ∃ e₀ : Engine, e₀.catalog = C ∧ e₀.limits = limits ∧ e₀.compiled = .empty ∧
      (compileNodes S.types).Ends e₀ (fun _ e => Codings.Included e.compiled.get? K ∧
        e.registry.resolved.Extends r.resolved) fun _ _ => False := by
  obtain ⟨e₀, catalog_eq, limits_eq, -, empty, run⟩ := h.run
  refine ⟨e₀, catalog_eq, limits_eq, empty, run.mono ?_ fun _ _ no => no⟩
  rintro _ _ rfl
  exact ⟨more, grown⟩

theorem Accepted.guide_listed (h : Accepted C limits S e)
    (found : e.compiled.get? S.typeName = some c) :
    ∃ d, e.registry.resolved.get? S.typeName = some d ∧
      Guide C limits S e.registry e.compiled.get? d c := by
  obtain ⟨node, mem, same⟩ := h.only _ _ found
  obtain ⟨short, members, fields, held, -⟩ := h.realized node mem
  rw [← same] at held
  refine ⟨_, held, held, h.schematic.filed _ _ held, ?_, h.realized, ?_, ?_, ?_, ?_, ?_⟩
  · exact fun d' held' isRecord => listed_of_held h.knows held' isRecord
  · exact fun c' found' => Option.some.inj (found'.symm.trans found)
  · exact fun _ => found
  · exact fun other => absurd rfl other
  · exact fun _ unlisted => absurd same.symm (unlisted node mem)
  · exact h.compiles (fun _ _ held => held) (Cache.extends_refl _)

section Unlisted

variable (h : Accepted C limits S e) (new : e.compiled.get? S.typeName = none)
  (filed : e.registry.Filed d) (change : r = e.registry ∨ r = e.registry.note S.typeName d)

include h filed change

theorem Accepted.listed (d' : Descriptor) (held : r.resolved.get? d'.name = some d')
    (isRecord : d'.isRecord = true) : ∃ node ∈ S.types, node.typeName = d'.name := by
  rcases change with rfl | rfl
  · exact listed_of_held h.knows held isRecord
  · rcases Cache.get?_add_eq_some held with old | ⟨-, -, rfl⟩
    · exact listed_of_held h.knows old isRecord
    · obtain ⟨-, -, -, old⟩ := filed.eq_built isRecord
      exact listed_of_held h.knows old isRecord

omit h filed in
theorem extends_of_change : e.registry.resolved.Extends r.resolved := by
  rcases change with rfl | rfl
  · exact Cache.extends_refl _
  · exact Cache.extends_add _ _ _

include new

theorem Accepted.guide_record (resolved : r.resolved.get? S.typeName = some d)
    (isRecord : d.isRecord = true)
    (rest : (codecOfRecord S.typeName d).Ends { e with registry := r } (fun c' _ => c' = c)
      fun _ _ => False) : Guide C limits S r e.compiled.get? d c := by
  have grown := extends_of_change change
  have compiled : ∀ node ∈ S.types, { e with registry := r }.Compiles node.typeName := by
    intro node mem
    obtain ⟨c', found, -⟩ := h.compiled node mem
    exact ⟨c', found⟩
  unfold codecOfRecord at rest
  rw [ends_bind] at rest
  have extraction := ends_extract_filed (e := { e with registry := r }) (filed.grown grown)
  obtain ⟨_, -, rest, same, ext, extracted, rfl⟩ :=
    ((rest.and extraction).mono (fun _ _ both => both) fun _ _ no => no.1).result
  rw [same] at rest
  cases rooted : ext.schema.root? with
  | none =>
    rw [rooted] at rest
    exact rest.elim
  | some root =>
    obtain ⟨c', equipped⟩ :=
      exists_equipped (filed.grown grown) isRecord (h.listed filed change) extracted compiled
    rw [rooted] at rest
    dsimp only at rest
    rw [compileWithin, equipped.ends_compileRound] at rest
    obtain rfl : c' = c := rest
    have held := equipped.1
    rw [(Extraction.ofDescriptor_eq_ok extracted).2.1] at held
    refine ⟨resolved, filed.grown grown, h.listed filed change, ?_, ?_, ?_, ?_, ?_, ?_⟩
    · exact fun node mem => (h.realized node mem).mono grown fun _ _ found => found
    · intro c'' found
      cases new.symm.trans found
    · exact fun _ => held
    · exact fun other => absurd isRecord other
    · exact fun _ _ => ⟨ext, h.catalog_eq ▸ extracted, by rw [rooted]; rfl⟩
    · exact h.compiles (fun _ _ found => found) grown

theorem Accepted.guide_direct (hS : S.Distinct) (resolved : r.resolved.get? S.typeName = some d)
    (other : ¬ d.isRecord = true)
    (rest : (compileRoot S.typeName d).Ends { e with registry := r } (fun c' _ => c' = c)
      fun _ _ => False) : ∃ K, Guide C limits S r K d c := by
  have grown := extends_of_change change
  obtain ⟨plan, chosen⟩ : ∃ plan, Plan.Chosen e.plan? d S.typeName plan := by
    unfold compileRoot at rest
    rw [ends_bind, ends_get, ends_bind, ends_ofExcept] at rest
    cases chosen : Plan.choose e.plan? S.typeName d S.typeName with
    | ok plan => exact ⟨plan, Plan.choose_iff.mp chosen⟩
    | error err => exact (rest.2 err chosen).elim
  rw [ends_compileRoot_new (e := { e with registry := r }) new chosen] at rest
  obtain rfl : ⟨S.typeName, plan, e.limits⟩ = c := rest
  rw [h.limits_eq]
  have more : Codings.Included e.compiled.get?
      (Function.update e.compiled.get? d.name (some ⟨d.name, plan, limits⟩)) := by
    intro name c' found
    rw [Function.update_of_ne ?_]
    · exact found
    · rintro rfl
      obtain ⟨node, mem, same⟩ := h.only _ _ found
      exact filed.name_ne hS other mem same
  refine ⟨Function.update e.compiled.get? d.name (some ⟨d.name, plan, limits⟩), resolved,
    filed.grown grown, h.listed filed change, ?_, ?_, ?_, ?_, ?_, ?_⟩
  · exact fun node mem => (h.realized node mem).mono grown more
  · intro c' found
    by_cases same : S.typeName = d.name
    · rw [same, Function.update_self] at found
      rw [same]
      exact (Option.some.inj found).symm
    · rw [Function.update_of_ne same, new] at found
      cases found
  · exact fun isRecord => absurd isRecord other
  · exact fun _ => ⟨chosen.mono more.plans, rfl, Function.update_self _ _ _⟩
  · exact fun isRecord => absurd isRecord other
  · exact h.compiles more grown

end Unlisted

/-- A new engine that accepts a schema compiles its nodes and then its root. -/
theorem exists_accepted (hS : S.Distinct)
    (named : ∀ node ∈ S.types, ∃ names : List String,
      node.children.map Node.name = names.map some ∧ names.Nodup)
    (accepted : (codecOfSchema S (fresh C limits)).result = .ok c) :
    ∃ e, Accepted C limits S e ∧
      (codecOfRoot S).Ends e (fun c' _ => c' = c) fun _ _ => False := by
  have run : (codecOfSchema S).Ends (fresh C limits) (fun c' _ => c' = c) fun _ _ => False :=
    ends_of_ok accepted rfl
  rw [ends_codecOfSchema_new rfl] at run
  have start : Assembled S limits [] { fresh C limits with counters := ⟨0, 0, 0, 1⟩ } :=
    { assembled_fresh S C limits with }
  have assembly := ends_compileNodes_assembled hS named (List.nil_append S.types).symm start
  obtain ⟨_, ok, rest, assembled⟩ :=
    ((run.and assembly).mono (fun _ _ both => both) fun _ _ no => no.1).result
  have writes := (writes_compileNodes S.types).state (s := { fresh C limits with
    counters := ⟨0, 0, 0, 1⟩ }) .refl
  exact ⟨_, ⟨assembled, writes.catalog_eq, _, rfl, rfl, rfl, rfl, ends_of_ok ok rfl⟩, rest⟩

theorem Accepted.ends_resolve_guide (hS : S.Distinct) (h : Accepted C limits S e)
    (rest : (codecOfRoot S).Ends e (fun c' _ => c' = c) fun _ _ => False) :
    (Registry.resolve S.typeName).Ends e.registry
      (fun d r => ∃ K, Guide C limits S r K d c) fun _ _ => False := by
  unfold codecOfRoot at rest
  rw [ends_bind, ends_get] at rest
  cases found : e.compiled.get? S.typeName with
  | some c' =>
    rw [found] at rest
    obtain rfl : c' = c := rest
    obtain ⟨d, held, guide⟩ := h.guide_listed found
    rw [Registry.ends_resolve_known held]
    exact ⟨_, guide⟩
  | none =>
    rw [found] at rest
    dsimp only at rest
    rw [ends_bind, resolve, ends_resolving] at rest
    have noted := Registry.ends_resolve_noted S.typeName e.registry
    refine ((rest.and (Registry.ends_resolve_filed h.schematic S.typeName)).and noted).mono ?_
      fun _ _ no => no.1.1
    rintro d r ⟨⟨rest, filed, change⟩, resolved⟩
    by_cases isRecord : d.isRecord = true
    · rw [if_pos isRecord] at rest
      exact ⟨_, h.guide_record found filed change resolved isRecord rest⟩
    · rw [if_neg isRecord] at rest
      exact h.guide_direct found filed change hS resolved isRecord rest

/-- A new engine that resolves the types of an accepted schema is guided to its coding. -/
theorem ends_resolveSchema_guide (hS : S.Distinct)
    (named : ∀ node ∈ S.types, ∃ names : List String,
      node.children.map Node.name = names.map some ∧ names.Nodup)
    (accepted : (codecOfSchema S (fresh C limits)).result = .ok c) :
    (resolveSchema S).Ends (fresh C limits)
      (fun d f => ∃ K, Guide C limits S f.registry K d c ∧
        f = { fresh C limits with registry := f.registry }) fun _ _ => False := by
  obtain ⟨e, h, rest⟩ := exists_accepted hS named accepted
  obtain ⟨e₀, -, -, registry_eq, empty, run⟩ := h.run
  have new : ∀ node ∈ S.types, e₀.compiled.get? node.typeName = none := by
    intro node _
    rw [empty]
    rfl
  have steps := ends_traverse_of_compileNodes (P := fun r => r = e.registry)
    (f := fresh C limits) hS.unique new registry_eq.symm
    (run.mono (fun _ _ same => congrArg registry same) fun _ _ no => no)
  unfold resolveSchema
  rw [ends_bind]
  refine steps.mono ?_ fun _ _ no => no
  rintro _ f ⟨known, same⟩
  rw [resolve, ends_resolving, known]
  refine (h.ends_resolve_guide hS rest).mono ?_ fun _ _ no => no
  rintro d r ⟨K, guide⟩
  exact ⟨K, guide, by rw [same]⟩

end Engine

end SchemaCodec
