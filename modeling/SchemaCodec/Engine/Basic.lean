import SchemaCodec.Plan.Compile
import SchemaCodec.Registry.Synthesis
import SchemaCodec.Schema.Extraction

/-! # Engines

The state behind all operations: the schemas of the program's types, the codings compiled so far,
and everything known by name. Entries are never replaced; counters tell how often one was there.
-/

namespace SchemaCodec

/-- How often a schema or a coding was found, or had to be made. -/
structure Counters where
  schemaHits : Nat
  schemaMisses : Nat
  compileHits : Nat
  compileMisses : Nat
  deriving DecidableEq, Repr

/-- The state of an engine. -/
structure Engine where
  catalog : Catalog
  limits : Limits
  schemas : Cache MessageType Schema
  compiled : Cache String Codec
  registry : Registry
  counters : Counters

structure Stats where
  schemas : Nat
  compiled : Nat
  resolved : Nat
  declared : Nat
  synthesized : Nat
  counters : Counters
  deriving DecidableEq, Repr

namespace Engine

def fresh (catalog : Catalog) (limits : Limits) : Engine :=
  ⟨catalog, limits, .empty, .empty, .empty, ⟨0, 0, 0, 0⟩⟩

def stats (e : Engine) : Stats where
  schemas := e.schemas.size
  compiled := e.compiled.size
  resolved := e.registry.resolved.size
  declared := e.registry.declared.size
  synthesized := e.registry.synthesized
  counters := e.counters

def plan? (e : Engine) (typeName : String) : Option Plan :=
  (e.compiled.get? typeName).map Codec.plan

def resolving {α : Type} (step : Action Registry α) : Action Engine α :=
  Action.within Engine.registry (fun r e => { e with registry := r }) step

def count (f : Counters → Counters) : Action Engine Unit :=
  Action.modify fun e => { e with counters := f e.counters }

/-- Makes the records met by an extraction known by name; synthesized ones are not declared. -/
def declareAll (C : Catalog) : List Descriptor → Action Registry Unit
  | [] => pure ()
  | d :: ds => do
    if d.origin C ≠ .synthesized then Registry.declare d
    declareAll C ds

def extract (d : Descriptor) : Action Engine Schema := do
  let e ← Action.get
  let extraction ← Action.ofExcept (Extraction.ofDescriptor e.catalog d)
  Action.report (.extracted d.name extraction.schema.types.length)
  resolving (declareAll e.catalog extraction.records)
  return extraction.schema

def schemaOf (t : MessageType) : Action Engine Schema := do
  let e ← Action.get
  match e.schemas.get? t with
  | some schema =>
    count fun c => { c with schemaHits := c.schemaHits + 1 }
    return schema
  | none =>
    count fun c => { c with schemaMisses := c.schemaMisses + 1 }
    Action.report (.schemaMissing t.name)
    let schema ← extract t.describe
    Action.modify fun e => { e with schemas := e.schemas.add t schema }
    return schema

/-- Makes a type of the program and every record that it leads to known by name. -/
def register (t : MessageType) : Action Engine Unit := do
  let _ ← schemaOf t

def declare (d : Descriptor) : Action Engine Unit := resolving (Registry.declare d)

/-- Makes the generic definition of a template known. -/
def registerGeneric (template : Descriptor) : Action Engine Generic := do
  let e ← Action.get
  let g ← Action.ofExcept (Generic.ofTemplate e.catalog template)
  resolving (Registry.declareGeneric g)
  return g

def resolve (name : String) : Action Engine Descriptor := resolving (Registry.resolve name)

def resolveNode (node : Node) : Action Engine Descriptor := resolving (Registry.resolveNode node)

/-- The root type of a schema, after its listed types. -/
def resolveSchema (schema : Schema) : Action Engine Descriptor := do
  let _ ← Action.traverse resolveNode schema.types
  resolve schema.typeName

end Engine

end SchemaCodec
