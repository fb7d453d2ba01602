import SchemaCodec.Proofs.Engine.Writes
import SchemaCodec.Proofs.Plan.Nodes
import SchemaCodec.Proofs.Schema.Extraction

/-! # Codings in reachable engines

Whatever calls an engine has taken, each coding that it holds has a coherent plan, which was
compiled from nodes of the schemas in these calls or of extracted ones, and the limits that the
engine began with. Compilation fails only off the wire.
-/

namespace SchemaCodec

open SchemaCodec.Action

/-- The coding has a coherent plan, compiled from nodes with `N`, which carries its name if it is
that of a record, and the given limits. -/
structure Codec.Sound (N : Node → Prop) (limits : Limits) (c : Codec) : Prop where
  coherent : c.plan.Coherent
  compiledFrom : c.plan.CompiledFrom N
  named : ∀ typeName fields, c.plan = .record typeName fields → typeName = c.typeName
  limits_eq : c.limits = limits

namespace Engine

variable {N : Node → Prop} {limits : Limits}

/-- The engine has the given limits, every coding that it holds is sound, and every schema lists
nodes with `N` only. -/
structure Sound (N : Node → Prop) (limits : Limits) (e : Engine) : Prop where
  limits_eq : e.limits = limits
  codec : ∀ name c, e.compiled.get? name = some c → c.Sound N limits
  schema : ∀ t schema, e.schemas.get? t = some schema → ∀ node ∈ schema.types, N node

theorem sound_fresh (N : Node → Prop) (C : Catalog) (limits : Limits) :
    Sound N limits (fresh C limits) :=
  ⟨rfl, fun _ _ h => (nomatch h), fun _ _ h => nomatch h⟩

theorem sound_resolving {α : Type} {R : Error → Prop} {P : α → Prop} {step : Action Registry α}
    (h : ∀ r₀, step.Keeps (Registry.Writes r₀) R P) :
    (resolving step).Keeps (Sound N limits) R P :=
  keeps_resolving h fun _ _ he _ => ⟨he.limits_eq, he.codec, he.schema⟩

theorem sound_count (f : Counters → Counters) :
    (count f).Keeps (Sound N limits) Error.OffWire fun _ => True :=
  keeps_modify fun _ hs => ⟨hs.limits_eq, hs.codec, hs.schema⟩

section Extracted

variable (ordered : ∀ node : Node, node.Ordered → N node)

include ordered

theorem sound_extract (d : Descriptor) :
    (extract d).Keeps (Sound N limits) Error.OffWire fun schema => ∀ node ∈ schema.types, N node := by
  apply keeps_extract
  · intro e _ ext extracted
    refine ⟨fun node mem => ordered node (Extraction.ordered_types extracted node mem), ?_⟩
    exact sound_resolving fun _ => Registry.writes_declareAll e.catalog ext.records
  · exact fun e _ => Extraction.offWire_ofDescriptor e.catalog d

theorem sound_schemaOf (t : MessageType) :
    (schemaOf t).Keeps (Sound N limits) Error.OffWire fun schema => ∀ node ∈ schema.types, N node := by
  apply keeps_schemaOf sound_count (fun e schema he => he.schema t schema)
    (sound_extract ordered t.describe) fun _ listed => listed
  intro e schema he listed
  refine ⟨he.limits_eq, he.codec, fun t' schema' found => ?_⟩
  rcases Cache.get?_add_eq_some found with old | ⟨-, -, rfl⟩
  · exact he.schema t' schema' old
  · exact listed

end Extracted

theorem sound_registerGeneric (template : Descriptor) :
    (registerGeneric template).Keeps (Sound N limits) (fun _ => True) fun _ => True := by
  refine keeps_get.bind fun e _ => ?_
  refine (keeps_ofExcept (P := fun _ => True) (fun _ _ => trivial) fun _ _ => trivial).bind
    fun g _ => ?_
  exact (sound_resolving fun _ => (Registry.writes_declareGeneric g).weaken).bind fun _ _ =>
    keeps_pure trivial

theorem sound_resolve (name : String) :
    (resolve name).Keeps (Sound N limits) Error.OffWire fun _ => True :=
  sound_resolving fun _ => Registry.writes_resolve name

theorem sound_resolveNode (node : Node) :
    (resolveNode node).Keeps (Sound N limits) Error.OffWire fun _ => True :=
  sound_resolving fun _ => Registry.writes_resolveNode node

theorem sound_resolveSchema (schema : Schema) :
    (resolveSchema schema).Keeps (Sound N limits) Error.OffWire fun _ => True :=
  (Keeps.traverse (Q := fun _ _ => True) fun node _ => sound_resolveNode node).bind fun _ _ =>
    sound_resolve schema.typeName

/-! ## Compilation -/

theorem Sound.linked {e : Engine} (h : Sound N limits e) (name : String) (plan : Plan)
    (found : e.plan? name = some plan) : plan.Coherent ∧ plan.CompiledFrom N := by
  obtain ⟨c, hc, rfl⟩ := Option.map_eq_some_iff.mp found
  exact ⟨(h.codec name c hc).coherent, (h.codec name c hc).compiledFrom⟩

theorem sound_keep {c : Codec} (hc : c.Sound N limits) :
    (keep c).Keeps (Sound N limits) Error.OffWire (Codec.Sound N limits) := by
  intro e he
  refine ⟨⟨he.limits_eq, fun name c' found => ?_, he.schema⟩, ?_⟩
  · rcases Cache.get?_add_eq_some found with old | ⟨-, -, rfl⟩
    · exact he.codec name c' old
    · exact hc
  · exact Cache.getOr_eq _ (he.codec c.typeName) hc

theorem sound_compileNodes {nodes : List Node} (listed : ∀ node ∈ nodes, N node) :
    (compileNodes nodes).Keeps (Sound N limits) Error.OffWire fun _ => True := by
  induction nodes with
  | nil => exact keeps_pure trivial
  | cons node nodes ih =>
    have rest := ih fun n mem => listed n (List.mem_cons_of_mem node mem)
    rw [compileNodes]
    refine keeps_get.bind fun _ _ => ?_
    split
    · exact rest
    · refine (sound_resolveNode node).bind fun d _ => keeps_get.bind fun e he => ?_
      refine (keeps_ofExcept (P := fun plan => Codec.Sound N limits ⟨node.typeName, plan, e.limits⟩) ?_
        (Plan.offWire_ofNode e.plan? e.catalog node d)).bind fun plan hplan => ?_
      · intro plan chosen
        refine ⟨Plan.coherent_ofNode (fun n p found => (he.linked n p found).1) chosen,
          Plan.compiledFrom_ofNode (fun n p found => (he.linked n p found).2)
            (listed node List.mem_cons_self) chosen, ?_, he.limits_eq⟩
        obtain ⟨members, fields, -, rfl, -⟩ := Plan.ofNode_iff.mp chosen
        rintro _ _ ⟨⟩
        rfl
      · exact (keeps_report _).bind fun _ _ => (sound_keep hplan).bind fun _ _ => rest

theorem sound_compileRoot (typeName : String) {d : Descriptor} (hd : d.isRecord ≠ true) :
    (compileRoot typeName d).Keeps (Sound N limits) Error.OffWire (Codec.Sound N limits) := by
  refine keeps_get.bind fun e he => ?_
  refine (keeps_ofExcept (P := Plan.Chosen e.plan? d typeName) (fun plan => Plan.choose_iff.mp)
    (Plan.offWire_choose e.plan? typeName d typeName)).bind fun plan chosen => ?_
  refine (keeps_report _).bind fun _ _ =>
    sound_keep ⟨chosen.coherent fun n p found => (he.linked n p found).1,
      chosen.compiledFrom fun n p found => (he.linked n p found).2, ?_, he.limits_eq⟩
  rintro name fields rfl
  cases chosen with
  | record _ _ isRecord _ _ => exact absurd isRecord hd

theorem sound_rootType (schema : Schema) (root : Option Descriptor) :
    (rootType schema root).Keeps (Sound N limits) Error.OffWire fun _ => True := by
  cases root with
  | some d => exact keeps_pure trivial
  | none => exact sound_resolve schema.typeName

section Compiled

variable (ordered : ∀ node : Node, node.Ordered → N node) {schema : Schema}

include ordered

theorem sound_compileRound {again : Schema → Descriptor → Action Engine Codec}
    (h : ∀ full d, (∀ node ∈ full.types, N node) →
      (again full d).Keeps (Sound N limits) Error.OffWire (Codec.Sound N limits))
    (listed : ∀ node ∈ schema.types, N node) (root : Option Descriptor) :
    (compileRound again schema root).Keeps (Sound N limits) Error.OffWire (Codec.Sound N limits) := by
  refine (sound_compileNodes listed).bind fun _ _ => keeps_get.bind fun e he => ?_
  split
  · next c found => exact keeps_pure (he.codec _ c found)
  · refine (sound_rootType schema root).bind fun d _ => ?_
    split
    · refine (sound_extract ordered d).bind fun full listed => ?_
      split
      · exact keeps_fail rfl
      · exact h full d listed
    · next hd => exact sound_compileRoot _ hd

theorem sound_compileWithin (rounds : Nat) (listed : ∀ node ∈ schema.types, N node)
    (root : Option Descriptor) :
    (compileWithin rounds schema root).Keeps (Sound N limits) Error.OffWire
      (Codec.Sound N limits) := by
  induction rounds generalizing schema root with
  | zero =>
    exact sound_compileRound ordered (fun _ _ _ => keeps_fail (e := .unbounded _) rfl) listed root
  | succ rounds ih =>
    exact sound_compileRound ordered (fun full d listed => ih listed (some d)) listed root

theorem sound_compile (listed : ∀ node ∈ schema.types, N node) (root : Option Descriptor) :
    (compile schema root).Keeps (Sound N limits) Error.OffWire (Codec.Sound N limits) :=
  sound_compileWithin ordered 1 listed root

theorem sound_codecOf (t : MessageType) :
    (codecOf t).Keeps (Sound N limits) Error.OffWire (Codec.Sound N limits) := by
  refine (sound_schemaOf ordered t).bind fun schema listed => keeps_get.bind fun e he => ?_
  split
  · next c found => exact (sound_count _).bind fun _ _ => keeps_pure (he.codec _ c found)
  · exact (sound_count _).bind fun _ _ => (keeps_report _).bind fun _ _ =>
      sound_compile ordered listed _

theorem sound_codecOfSchema (listed : ∀ node ∈ schema.types, N node) :
    (codecOfSchema schema).Keeps (Sound N limits) Error.OffWire (Codec.Sound N limits) := by
  refine keeps_get.bind fun e he => ?_
  split
  · next c found => exact (sound_count _).bind fun _ _ => keeps_pure (he.codec _ c found)
  · exact (sound_count _).bind fun _ _ => sound_compile ordered listed none

theorem sound_codecOfName (typeName : String) :
    (codecOfName typeName).Keeps (Sound N limits) Error.OffWire (Codec.Sound N limits) := by
  refine keeps_get.bind fun e he => ?_
  split
  · next c found => exact keeps_pure (he.codec _ c found)
  · exact (sound_resolve typeName).bind fun d _ => (sound_extract ordered d).bind fun schema listed =>
      sound_compile ordered listed (some d)

theorem sound_prepare (t : MessageType) (x : Instance) :
    (prepare t x).Keeps (Sound N limits) Error.OffWire fun p => p.1.Sound N limits := by
  refine (sound_codecOf ordered t).bind fun c hc => keeps_get.bind fun e _ => ?_
  exact (keeps_ofExcept (P := fun _ => True) (fun _ _ => trivial)
    (e.catalog.offWire_toValue x t)).bind fun v _ => keeps_pure hc

end Compiled

/-! ## Runs -/

/-- The schemas that come with a call list nodes with `N` only. -/
def Operation.Lists (N : Node → Prop) : Operation → Prop
  | codecOfSchema schema => ∀ node ∈ schema.types, N node
  | serializeValue schema _ => ∀ node ∈ schema.types, N node
  | serializeValueInto schema _ _ => ∀ node ∈ schema.types, N node
  | valueSize schema _ => ∀ node ∈ schema.types, N node
  | deserializeValue schema _ => ∀ node ∈ schema.types, N node
  | deserializeValueFrom schema _ => ∀ node ∈ schema.types, N node
  | _ => True

theorem sound_preserves (ordered : ∀ node : Node, node.Ordered → N node) {op : Operation}
    (lists : op.Lists N) : op.Preserves (Sound N limits) := by
  cases op with
  | schemaOf t | register t => exact (sound_schemaOf ordered t).weaken
  | extract d => exact (sound_extract ordered d).weaken
  | registerGeneric template => exact sound_registerGeneric template
  | declare d => exact (sound_resolving fun _ => Registry.writes_declare d).weaken
  | resolve name => exact (sound_resolve name).weaken
  | resolveNode node => exact (sound_resolveNode node).weaken
  | resolveSchema schema => exact (sound_resolveSchema schema).weaken
  | codecOf t | serialize t _ | serializeInto t _ _ | serializeAt t _ _ _ | messageSize t _
  | deserialize t _ | deserializeFrom t _ => exact (sound_codecOf ordered t).weaken
  | codecOfSchema schema | serializeValue schema _ | serializeValueInto schema _ _
  | valueSize schema _ | deserializeValue schema _ | deserializeValueFrom schema _ =>
    exact (sound_codecOfSchema ordered lists).weaken
  | deserializeNamed typeName _ => exact (sound_codecOfName ordered typeName).weaken

/-- Every coding in a reachable engine has a coherent plan and the limits of the engine. It was
compiled from nodes with any property that the schemas of the run and all extracted ones have. -/
theorem sound_after (ordered : ∀ node : Node, node.Ordered → N node) (C : Catalog)
    {ops : List Operation} (lists : ∀ op ∈ ops, op.Lists N) :
    Sound N limits (after ops (fresh C limits)) :=
  after_preserves (sound_fresh N C limits) fun op hop => sound_preserves ordered (lists op hop)

theorem Reachable.sound {C : Catalog} {e : Engine} (h : Reachable C limits e) :
    Sound (fun _ => True) limits e := by
  obtain ⟨ops, rfl⟩ := h
  refine sound_after (fun _ _ => trivial) C fun op _ => ?_
  cases op <;> first | exact trivial | exact fun _ _ => trivial

/-- A plan in a reachable engine is that of a coding with the limits of the engine. -/
theorem Reachable.exists_codec {C : Catalog} {e : Engine} {name : String} {plan : Plan}
    (h : Reachable C limits e) (planned : e.plan? name = some plan) :
    ∃ typeName, e.compiled.get? name = some ⟨typeName, plan, limits⟩ := by
  obtain ⟨⟨typeName, _, _⟩, found, rfl⟩ := plan?_eq_some.mp planned
  obtain rfl := (h.sound.codec name _ found).limits_eq
  exact ⟨typeName, found⟩

end Engine

end SchemaCodec
