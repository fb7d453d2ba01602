import SchemaCodec.Proofs.Engine.Rejection

/-! # Answers

What a call answers, besides what it does to the engine. Counters count, and nothing else: engines
that differ in their counters only give the same answers, now and after any further calls.
-/

namespace SchemaCodec

namespace Action

variable {σ τ α β : Type} {R : σ → σ → Prop} {step : Action σ α}

/-- The step cannot tell related states apart: it ends alike, in states that are related again. -/
def Blind (R : σ → σ → Prop) (step : Action σ α) : Prop :=
  ∀ s s', R s s' → (step s).result = (step s').result ∧ R (step s).state (step s').state

theorem blind_pure (x : α) : (pure x : Action σ α).Blind R := fun _ _ h => ⟨rfl, h⟩

theorem blind_fail (e : Error) : (fail e : Action σ α).Blind R := fun _ _ h => ⟨rfl, h⟩

theorem blind_report (event : Event) : (report event : Action σ Unit).Blind R :=
  fun _ _ h => ⟨rfl, h⟩

theorem blind_ofExcept (outcome : Except Error α) : (ofExcept outcome : Action σ α).Blind R :=
  fun _ _ h => ⟨rfl, h⟩

theorem blind_modify {f : σ → σ} (h : ∀ s s', R s s' → R (f s) (f s')) : (modify f).Blind R :=
  fun s s' related => ⟨rfl, h s s' related⟩

theorem Blind.bind {next : α → Action σ β} (h : step.Blind R) (rest : ∀ x, (next x).Blind R) :
    (step >>= next).Blind R := by
  intro s s' related
  obtain ⟨same, related'⟩ := h s s' related
  show (Action.bind step next s).result = (Action.bind step next s').result ∧
    R (Action.bind step next s).state (Action.bind step next s').state
  unfold Action.bind
  cases first : (step s).result with
  | ok x =>
    simp only [first, same.symm.trans first]
    exact rest x _ _ related'
  | error e =>
    simp only [first, same.symm.trans first]
    exact ⟨trivial, related'⟩

theorem blind_get {next : σ → Action σ α} (same : ∀ s s', R s s' → next s' = next s)
    (rest : ∀ s, (next s).Blind R) : (get >>= next).Blind R := by
  intro s s' related
  show (next s s).result = (next s' s').result ∧ R (next s s).state (next s' s').state
  rw [same s s' related]
  exact rest s s s' related

theorem Blind.traverse {each : β → Action σ α} (h : ∀ x, (each x).Blind R) (xs : List β) :
    (Action.traverse each xs).Blind R := by
  induction xs with
  | nil => exact blind_pure []
  | cons x xs ih => exact (h x).bind fun y => ih.bind fun ys => blind_pure (y :: ys)

theorem blind_within {part : σ → τ} {update : τ → σ → σ} (inner : Action τ α)
    (same : ∀ s s', R s s' → part s' = part s)
    (updated : ∀ s s' t, R s s' → R (update t s) (update t s')) :
    (within part update inner).Blind R := by
  intro s s' related
  unfold within
  rw [same s s' related]
  exact ⟨rfl, updated s s' _ related⟩

/-! ## Steps with a second state -/

def Beside (R : σ → σ → Prop) (p p' : σ × τ) : Prop := R p.1 p'.1 ∧ p.2 = p'.2

theorem Blind.first (h : step.Blind R) :
    (Action.first step : Action (σ × τ) α).Blind (Beside R) := by
  rintro ⟨s, t⟩ ⟨s', _⟩ ⟨related, rfl⟩
  obtain ⟨same, related'⟩ := h s s' related
  exact ⟨same, related', rfl⟩

theorem blind_second (inner : Action τ α) :
    (Action.second inner : Action (σ × τ) α).Blind (Beside R) := by
  rintro ⟨s, t⟩ ⟨s', _⟩ ⟨related, rfl⟩
  exact ⟨rfl, related, rfl⟩

theorem Blind.supplied {inner : Action (σ × τ) α} (h : inner.Blind (Beside R)) (t : τ) :
    (Action.supplied t inner).Blind R := by
  intro s s' related
  obtain ⟨same, related', -⟩ := h (s, t) (s', t) ⟨related, rfl⟩
  exact ⟨same, related'⟩

end Action

namespace Engine

open SchemaCodec.Action

/-- The engines are for the same program and know the same: they may differ in their counters. -/
structure Alike (e e' : Engine) : Prop extends SameKnowledge e e' where
  catalog_eq : e'.catalog = e.catalog
  limits_eq : e'.limits = e.limits

variable {e e' : Engine}

theorem alike_refl (e : Engine) : Alike e e := ⟨⟨rfl, rfl, rfl⟩, rfl, rfl⟩

theorem Alike.symm (h : Alike e e') : Alike e' e :=
  ⟨⟨h.schemas.symm, h.registry.symm, h.compiled.symm⟩, h.catalog_eq.symm, h.limits_eq.symm⟩

theorem Alike.trans {e'' : Engine} (h : Alike e e') (h' : Alike e' e'') : Alike e e'' where
  schemas := h'.schemas.trans h.schemas
  registry := h'.registry.trans h.registry
  compiled := h'.compiled.trans h.compiled
  catalog_eq := h'.catalog_eq.trans h.catalog_eq
  limits_eq := h'.limits_eq.trans h.limits_eq

theorem Alike.plan?_eq (h : Alike e e') : e'.plan? = e.plan? := by
  funext name
  rw [plan?, plan?, h.compiled]

/-! ## Steps that do not look at counters -/

theorem blind_resolving {α : Type} (step : Action Registry α) : (resolving step).Blind Alike :=
  blind_within step (fun _ _ h => h.registry) fun _ _ _ h =>
    ⟨⟨h.schemas, rfl, h.compiled⟩, h.catalog_eq, h.limits_eq⟩

theorem blind_count (f : Counters → Counters) : (count f).Blind Alike :=
  blind_modify fun _ _ h => ⟨⟨h.schemas, h.registry, h.compiled⟩, h.catalog_eq, h.limits_eq⟩

theorem blind_extract (d : Descriptor) : (extract d).Blind Alike := by
  apply blind_get
  · intro e e' h
    simp only [h.catalog_eq]
  · exact fun e => (blind_ofExcept _).bind fun ext => (blind_report _).bind fun _ =>
      (blind_resolving _).bind fun _ => blind_pure _

theorem blind_schemaOf (t : MessageType) : (schemaOf t).Blind Alike := by
  apply blind_get
  · intro e e' h
    simp only [h.schemas]
  · intro e
    split
    · exact (blind_count _).bind fun _ => blind_pure _
    · refine (blind_count _).bind fun _ => (blind_report _).bind fun _ =>
        (blind_extract _).bind fun schema => Blind.bind (blind_modify fun e e' h => ?_) fun _ =>
          blind_pure schema
      exact ⟨⟨by rw [h.schemas], h.registry, h.compiled⟩, h.catalog_eq, h.limits_eq⟩

theorem blind_register (t : MessageType) : (register t).Blind Alike :=
  (blind_schemaOf t).bind fun _ => blind_pure ()

theorem blind_registerGeneric (template : Descriptor) : (registerGeneric template).Blind Alike := by
  apply blind_get
  · intro e e' h
    simp only [h.catalog_eq]
  · exact fun e => (blind_ofExcept _).bind fun g => (blind_resolving _).bind fun _ => blind_pure g

theorem blind_resolveSchema (schema : Schema) : (resolveSchema schema).Blind Alike :=
  (Blind.traverse (fun node => blind_resolving (Registry.resolveNode node)) _).bind fun _ =>
    blind_resolving _

theorem blind_keep (c : Codec) : (keep c).Blind Alike := by
  apply blind_get
  · intro e e' h
    simp only [h.compiled]
  · refine fun e => Blind.bind (blind_modify fun e e' h => ?_) fun _ => blind_pure _
    exact ⟨⟨h.schemas, h.registry, by rw [h.compiled]⟩, h.catalog_eq, h.limits_eq⟩

theorem blind_compileNodes (nodes : List Node) : (compileNodes nodes).Blind Alike := by
  induction nodes with
  | nil => exact blind_pure ()
  | cons node nodes ih =>
    rw [compileNodes]
    apply blind_get
    · intro e e' h
      simp only [h.compiled]
    · intro e
      split
      · exact ih
      · refine Blind.bind (blind_resolving _) fun d => blind_get (fun e e' h => ?_) fun e => ?_
        · simp only [h.plan?_eq, h.catalog_eq, h.limits_eq]
        · exact (blind_ofExcept _).bind fun plan => (blind_report _).bind fun _ =>
            (blind_keep _).bind fun _ => ih

theorem blind_compileRoot (name : String) (d : Descriptor) : (compileRoot name d).Blind Alike := by
  apply blind_get
  · intro e e' h
    simp only [h.plan?_eq, h.limits_eq]
  · exact fun e => (blind_ofExcept _).bind fun plan => (blind_report _).bind fun _ => blind_keep _

theorem blind_compileRound {again : Schema → Descriptor → Action Engine Codec}
    (h : ∀ full d, (again full d).Blind Alike) (schema : Schema) (root : Option Descriptor) :
    (compileRound again schema root).Blind Alike := by
  refine (blind_compileNodes _).bind fun _ => blind_get (fun e e' h => ?_) fun e => ?_
  · simp only [h.compiled]
  · split
    · exact blind_pure _
    · refine Blind.bind ?_ fun d => ?_
      · cases root with
        | some d => exact blind_pure d
        | none => exact blind_resolving _
      · split
        · refine (blind_extract d).bind fun full => ?_
          split
          · exact blind_fail _
          · exact h full d
        · exact blind_compileRoot _ d

theorem blind_compile (schema : Schema) (root : Option Descriptor) :
    (compile schema root).Blind Alike := by
  apply blind_compileRound fun full d => ?_
  exact blind_compileRound (fun _ _ => blind_fail _) full (some d)

theorem blind_codecOf (t : MessageType) : (codecOf t).Blind Alike := by
  refine (blind_schemaOf t).bind fun schema => blind_get (fun e e' h => ?_) fun e => ?_
  · simp only [h.compiled]
  · split
    · exact (blind_count _).bind fun _ => blind_pure _
    · exact (blind_count _).bind fun _ => (blind_report _).bind fun _ => blind_compile _ _

theorem blind_codecOfSchema (schema : Schema) : (codecOfSchema schema).Blind Alike := by
  refine blind_get (fun e e' h => ?_) fun e => ?_
  · simp only [h.compiled]
  · split
    · exact (blind_count _).bind fun _ => blind_pure _
    · exact (blind_count _).bind fun _ => blind_compile _ _

theorem blind_codecOfName (name : String) : (codecOfName name).Blind Alike := by
  refine blind_get (fun e e' h => ?_) fun e => ?_
  · simp only [h.compiled]
  · split
    · exact blind_pure _
    · exact (blind_resolving _).bind fun d => (blind_extract d).bind fun schema =>
        blind_compile _ _

theorem blind_prepare (t : MessageType) (x : Instance) : (prepare t x).Blind Alike := by
  refine (blind_codecOf t).bind fun c => blind_get (fun e e' h => ?_) fun e => ?_
  · simp only [h.catalog_eq]
  · exact (blind_ofExcept _).bind fun v => blind_pure (c, v)

theorem blind_deserializeFrom (t : MessageType) :
    (deserializeFrom t).Blind (Beside Alike) := by
  refine (blind_codecOf t).first.bind fun c => (blind_second _).bind fun v =>
    blind_get (fun p p' h => ?_) fun p => blind_ofExcept _
  simp only [h.1.catalog_eq]

/-! ## Answers of calls -/

namespace Operation

/-- What a call may answer: its result, and the sink, buffer or source that it worked on. -/
def Answer : Operation → Type
  | schemaOf _ | extract _ => Except Error Schema
  | register _ | declare _ => Except Error Unit
  | registerGeneric _ => Except Error Generic
  | resolve _ | resolveNode _ | resolveSchema _ => Except Error Descriptor
  | codecOf _ | codecOfSchema _ => Except Error Codec
  | serialize _ _ | serializeValue _ _ => Except Error (List UInt8)
  | messageSize _ _ | valueSize _ _ => Except Error Nat
  | serializeInto _ _ _ | serializeValueInto _ _ _ => Except Error Unit × Sink
  | serializeAt _ _ _ _ => Except Error Nat × List UInt8
  | deserialize _ _ => Except Error Instance
  | deserializeFrom _ _ => Except Error Instance × Source
  | deserializeValue _ _ | deserializeNamed _ _ => Except Error Value
  | deserializeValueFrom _ _ => Except Error Value × Source

def answer : (op : Operation) → Engine → op.Answer
  | schemaOf t, e => (Engine.schemaOf t e).result
  | extract d, e => (Engine.extract d e).result
  | register t, e => (Engine.register t e).result
  | registerGeneric template, e => (Engine.registerGeneric template e).result
  | declare d, e => (Engine.declare d e).result
  | resolve name, e => (Engine.resolve name e).result
  | resolveNode node, e => (Engine.resolveNode node e).result
  | resolveSchema schema, e => (Engine.resolveSchema schema e).result
  | codecOf t, e => (Engine.codecOf t e).result
  | codecOfSchema schema, e => (Engine.codecOfSchema schema e).result
  | serialize t x, e => (Engine.serialize t x e).result
  | serializeInto t x sink, e =>
    let outcome := Engine.serializeInto t x (e, sink)
    (outcome.result, outcome.state.2)
  | serializeAt t x offset buffer, e =>
    let outcome := Engine.serializeAt t x offset (e, buffer)
    (outcome.result, outcome.state.2)
  | messageSize t x, e => (Engine.messageSize t x e).result
  | deserialize t bytes, e => (Engine.deserialize t bytes e).result
  | deserializeFrom t source, e =>
    let outcome := Engine.deserializeFrom t (e, source)
    (outcome.result, outcome.state.2)
  | serializeValue schema v, e => (Engine.serializeValue schema v e).result
  | serializeValueInto schema v sink, e =>
    let outcome := Engine.serializeValueInto schema v (e, sink)
    (outcome.result, outcome.state.2)
  | valueSize schema v, e => (Engine.valueSize schema v e).result
  | deserializeValue schema bytes, e => (Engine.deserializeValue schema bytes e).result
  | deserializeValueFrom schema source, e =>
    let outcome := Engine.deserializeValueFrom schema (e, source)
    (outcome.result, outcome.state.2)
  | deserializeNamed typeName bytes, e => (Engine.deserializeNamed typeName bytes e).result

end Operation

theorem blind_then {α β : Type} {step : Action Engine α} {next : α → Except Error β}
    (h : step.Blind Alike) : (step >>= fun x => ofExcept (next x)).Blind Alike :=
  h.bind fun _ => blind_ofExcept _

theorem blind_with {τ α β : Type} {step : Action Engine α} {next : α → Action τ β}
    (h : step.Blind Alike) :
    (Action.first step >>= fun x => Action.second (next x)).Blind (Beside Alike) :=
  h.first.bind fun x => blind_second (next x)

/-- Engines that know the same answer alike, and know the same afterwards. -/
theorem Alike.call (h : Alike e e') (op : Operation) :
    op.answer e' = op.answer e ∧ Alike (op.apply e) (op.apply e') := by
  have simple : ∀ {α : Type} {step : Action Engine α}, step.Blind Alike →
      (step e').result = (step e).result ∧ Alike (step e).state (step e').state :=
    fun blind => ⟨(blind e e' h).1.symm, (blind e e' h).2⟩
  have beside : ∀ {τ α : Type} {step : Action (Engine × τ) α} (t : τ), step.Blind (Beside Alike) →
      ((step (e', t)).result, (step (e', t)).state.2) =
        ((step (e, t)).result, (step (e, t)).state.2) ∧
      Alike (step (e, t)).state.1 (step (e', t)).state.1 := by
    intro τ α step t blind
    obtain ⟨same, alike, second⟩ := blind (e, t) (e', t) ⟨h, rfl⟩
    exact ⟨by rw [same, second], alike⟩
  cases op with
  | schemaOf t => exact simple (blind_schemaOf t)
  | extract d => exact simple (blind_extract d)
  | register t => exact simple (blind_register t)
  | registerGeneric template => exact simple (blind_registerGeneric template)
  | declare d => exact simple (blind_resolving _)
  | resolve name => exact simple (blind_resolving _)
  | resolveNode node => exact simple (blind_resolving _)
  | resolveSchema schema => exact simple (blind_resolveSchema schema)
  | codecOf t => exact simple (blind_codecOf t)
  | codecOfSchema schema => exact simple (blind_codecOfSchema schema)
  | serialize t x | messageSize t x => exact simple (blind_then (blind_prepare t x))
  | serializeInto t x sink => exact beside sink (blind_with (blind_prepare t x))
  | serializeAt t x offset buffer => exact beside buffer (blind_with (blind_prepare t x))
  | deserialize t bytes => exact simple ((blind_deserializeFrom t).supplied _)
  | deserializeFrom t source => exact beside source (blind_deserializeFrom t)
  | serializeValue schema v | valueSize schema v =>
    exact simple (blind_then (blind_codecOfSchema schema))
  | serializeValueInto schema v sink => exact beside sink (blind_with (blind_codecOfSchema schema))
  | deserializeValue schema bytes =>
    exact simple ((blind_with (blind_codecOfSchema schema)).supplied _)
  | deserializeValueFrom schema source =>
    exact beside source (blind_with (blind_codecOfSchema schema))
  | deserializeNamed typeName bytes =>
    exact simple ((blind_codecOfName typeName).bind fun c => (blind_second _).supplied _)

/-- They still know the same after any further calls, so all later answers are the same. -/
theorem Alike.after (h : Alike e e') (ops : List Operation) :
    Alike (after ops e) (after ops e') := by
  induction ops generalizing e e' with
  | nil => exact h
  | cons op ops ih => exact ih (h.call op).2

end Engine

end SchemaCodec
