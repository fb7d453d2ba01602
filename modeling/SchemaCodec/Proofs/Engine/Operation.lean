import SchemaCodec.Engine.Messages
import SchemaCodec.Engine.Values
import SchemaCodec.Proofs.Action

/-! # Operations and runs

The calls that an engine takes, with their arguments. A run is any sequence of calls; a call that
fails leaves behind what it did before.
-/

namespace SchemaCodec.Engine

open SchemaCodec.Action

/-- A call on an engine. -/
inductive Operation
  | schemaOf (t : MessageType)
  | extract (d : Descriptor)
  | register (t : MessageType)
  | registerGeneric (template : Descriptor)
  | declare (d : Descriptor)
  | resolve (name : String)
  | resolveNode (node : Node)
  | resolveSchema (schema : Schema)
  | codecOf (t : MessageType)
  | codecOfSchema (schema : Schema)
  | serialize (t : MessageType) (x : Instance)
  | serializeInto (t : MessageType) (x : Instance) (sink : Sink)
  | serializeAt (t : MessageType) (x : Instance) (offset : Nat) (buffer : List UInt8)
  | messageSize (t : MessageType) (x : Instance)
  | deserialize (t : MessageType) (bytes : List UInt8)
  | deserializeFrom (t : MessageType) (source : Source)
  | serializeValue (schema : Schema) (v : Value)
  | serializeValueInto (schema : Schema) (v : Value) (sink : Sink)
  | valueSize (schema : Schema) (v : Value)
  | deserializeValue (schema : Schema) (bytes : List UInt8)
  | deserializeValueFrom (schema : Schema) (source : Source)
  | deserializeNamed (typeName : String) (bytes : List UInt8)

def Operation.apply : Operation → Engine → Engine
  | schemaOf t, e => (Engine.schemaOf t e).state
  | extract d, e => (Engine.extract d e).state
  | register t, e => (Engine.register t e).state
  | registerGeneric template, e => (Engine.registerGeneric template e).state
  | declare d, e => (Engine.declare d e).state
  | resolve name, e => (Engine.resolve name e).state
  | resolveNode node, e => (Engine.resolveNode node e).state
  | resolveSchema schema, e => (Engine.resolveSchema schema e).state
  | codecOf t, e => (Engine.codecOf t e).state
  | codecOfSchema schema, e => (Engine.codecOfSchema schema e).state
  | serialize t x, e => (Engine.serialize t x e).state
  | serializeInto t x sink, e => (Engine.serializeInto t x (e, sink)).state.1
  | serializeAt t x offset buffer, e => (Engine.serializeAt t x offset (e, buffer)).state.1
  | messageSize t x, e => (Engine.messageSize t x e).state
  | deserialize t bytes, e => (Engine.deserialize t bytes e).state
  | deserializeFrom t source, e => (Engine.deserializeFrom t (e, source)).state.1
  | serializeValue schema v, e => (Engine.serializeValue schema v e).state
  | serializeValueInto schema v sink, e => (Engine.serializeValueInto schema v (e, sink)).state.1
  | valueSize schema v, e => (Engine.valueSize schema v e).state
  | deserializeValue schema bytes, e => (Engine.deserializeValue schema bytes e).state
  | deserializeValueFrom schema source, e =>
    (Engine.deserializeValueFrom schema (e, source)).state.1
  | deserializeNamed typeName bytes, e => (Engine.deserializeNamed typeName bytes e).state

/-- The engine after a sequence of calls. -/
def after (ops : List Operation) (e : Engine) : Engine := ops.foldl (fun e op => op.apply e) e

/-- The engine is what some run makes of one that has done nothing yet. -/
def Reachable (C : Catalog) (limits : Limits) (e : Engine) : Prop :=
  ∃ ops, e = after ops (fresh C limits)

theorem after_induction {I : Engine → Prop} {ops : List Operation} {e : Engine} (start : I e)
    (step : ∀ op ∈ ops, ∀ e, I e → I (op.apply e)) : I (after ops e) := by
  induction ops generalizing e with
  | nil => exact start
  | cons op ops ih =>
    exact ih (step op List.mem_cons_self e start) fun op hop => step op (List.mem_cons_of_mem _ hop)

/-! ## What calls keep -/

section Calls

variable {I : Engine → Prop} {R : Error → Prop} {α : Type} {P : α → Prop} {step : Action Engine α}
  {t : MessageType} {e : Engine}

theorem keeps_then {β : Type} {next : α → Except Error β} (h : step.Keeps I R P) :
    (step >>= fun x => ofExcept (next x)).Keeps I (fun _ => True) fun _ => True :=
  h.weaken.bind fun _ _ => keeps_ofExcept (fun _ _ => trivial) fun _ _ => trivial

theorem keeps_with {τ β : Type} {next : α → Action τ β} (h : step.Keeps I R P) :
    (first step >>= fun x => second (next x)).Keeps (fun p => I p.1) (fun _ => True)
      fun _ => True :=
  h.first.weaken.bind fun x _ => keeps_second (next x)

theorem keeps_prepare {P : Codec → Prop} (h : (Engine.codecOf t).Keeps I R P) (x : Instance) :
    (prepare t x).Keeps I (fun _ => True) fun _ => True := by
  refine h.weaken.bind fun c _ => keeps_get.bind fun e _ => ?_
  exact (keeps_ofExcept (P := fun _ => True) (fun _ _ => trivial) fun _ _ => trivial).bind
    fun v _ => keeps_pure trivial

theorem keeps_deserializeFrom {P : Codec → Prop} (h : (Engine.codecOf t).Keeps I R P) :
    (Engine.deserializeFrom t).Keeps (fun p => I p.1) (fun _ => True) fun _ => True := by
  refine h.first.weaken.bind fun c _ => (keeps_second _).bind fun v _ => ?_
  exact keeps_get.bind fun e _ => keeps_ofExcept (fun _ _ => trivial) fun _ _ => trivial

/-- What the call does to the engine keeps the invariant, whatever becomes of instances, values and
bytes. -/
def Operation.Preserves (I : Engine → Prop) : Operation → Prop
  | schemaOf t | register t => (Engine.schemaOf t).Keeps I (fun _ => True) fun _ => True
  | extract d => (Engine.extract d).Keeps I (fun _ => True) fun _ => True
  | registerGeneric template =>
    (Engine.registerGeneric template).Keeps I (fun _ => True) fun _ => True
  | declare d => (Engine.declare d).Keeps I (fun _ => True) fun _ => True
  | resolve name => (Engine.resolve name).Keeps I (fun _ => True) fun _ => True
  | resolveNode node => (Engine.resolveNode node).Keeps I (fun _ => True) fun _ => True
  | resolveSchema schema => (Engine.resolveSchema schema).Keeps I (fun _ => True) fun _ => True
  | codecOf t | serialize t _ | serializeInto t _ _ | serializeAt t _ _ _ | messageSize t _
  | deserialize t _ | deserializeFrom t _ =>
    (Engine.codecOf t).Keeps I (fun _ => True) fun _ => True
  | codecOfSchema schema | serializeValue schema _ | serializeValueInto schema _ _
  | valueSize schema _ | deserializeValue schema _ | deserializeValueFrom schema _ =>
    (Engine.codecOfSchema schema).Keeps I (fun _ => True) fun _ => True
  | deserializeNamed typeName _ => (codecOfName typeName).Keeps I (fun _ => True) fun _ => True

theorem Operation.Preserves.apply {op : Operation} (h : op.Preserves I) (he : I e) :
    I (op.apply e) := by
  cases op with
  | schemaOf t | extract d | registerGeneric template | declare d | resolve name | resolveNode node
  | resolveSchema schema | codecOf t | codecOfSchema schema => exact Keeps.state h he
  | register t => exact (Keeps.bind h fun _ _ => keeps_pure (P := fun _ => True) trivial).state he
  | serialize t x | messageSize t x => exact (keeps_then (keeps_prepare h x)).state he
  | serializeInto t x sink => exact (keeps_with (keeps_prepare h x)).state (s := (e, sink)) he
  | serializeAt t x offset buffer =>
    exact (keeps_with (keeps_prepare h x)).state (s := (e, buffer)) he
  | deserialize t bytes =>
    exact ((keeps_deserializeFrom h).supplied (Source.ofBytes bytes)).state he
  | deserializeFrom t source => exact (keeps_deserializeFrom h).state (s := (e, source)) he
  | serializeValue schema v | valueSize schema v => exact (keeps_then h).state he
  | serializeValueInto schema v sink => exact (keeps_with h).state (s := (e, sink)) he
  | deserializeValue schema bytes =>
    exact ((keeps_with h).supplied (Source.ofBytes bytes)).state he
  | deserializeValueFrom schema source => exact (keeps_with h).state (s := (e, source)) he
  | deserializeNamed typeName bytes =>
    exact (Keeps.bind h fun c _ =>
      (keeps_second (ofStateful c.decode)).supplied (Source.ofBytes bytes)).state he

/-- What every call preserves holds after every run. -/
theorem after_preserves {ops : List Operation} (start : I e) (h : ∀ op ∈ ops, op.Preserves I) :
    I (after ops e) :=
  after_induction start fun op hop _ he => (h op hop).apply he

end Calls

end SchemaCodec.Engine
