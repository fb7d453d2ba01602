import SchemaCodec.Engine.Basic

/-! # Compilation

The types of a schema are compiled in the order in which they are listed, each once. A root that
its schema does not list is compiled from its own type: a record through the schema extracted from
it, anything else directly.
-/

namespace SchemaCodec.Engine

def keep (codec : Codec) : Action Engine Codec := do
  let e ← Action.get
  Action.modify fun e => { e with compiled := e.compiled.add codec.typeName codec }
  return e.compiled.getOr codec.typeName codec

def compileNodes : List Node → Action Engine Unit
  | [] => pure ()
  | node :: nodes => do
    let e ← Action.get
    if e.compiled.contains node.typeName then compileNodes nodes
    else
      let d ← resolveNode node
      let e ← Action.get
      let plan ← Action.ofExcept (Plan.ofNode e.plan? e.catalog node d)
      Action.report (.compiled node.typeName node.children.length)
      let _ ← keep ⟨node.typeName, plan, e.limits⟩
      compileNodes nodes

def compileRoot (typeName : String) (d : Descriptor) : Action Engine Codec := do
  let e ← Action.get
  let plan ← Action.ofExcept (Plan.choose e.plan? typeName d typeName)
  Action.report (.rootCompiled typeName plan.describe)
  keep ⟨typeName, plan, e.limits⟩

def rootType (schema : Schema) : Option Descriptor → Action Engine Descriptor
  | some d => pure d
  | none => resolve schema.typeName

/-- One round of compilation; a root that is not listed is compiled `again` through the schema
extracted from it. -/
def compileRound (again : Schema → Descriptor → Action Engine Codec) (schema : Schema)
    (root : Option Descriptor) : Action Engine Codec := do
  compileNodes schema.types
  let e ← Action.get
  match e.compiled.get? schema.typeName with
  | some codec => return codec
  | none =>
    let d ← rootType schema root
    if d.isRecord then
      let full ← extract d
      match full.root? with
      | none => Action.fail (.typeNotFound schema.typeName)
      | some _ => again full d
    else compileRoot schema.typeName d

/-- Compiles a schema, whose root type may be given; a root that is not listed takes one more of
the `rounds`. -/
def compileWithin : Nat → Schema → Option Descriptor → Action Engine Codec
  | 0, schema, root => compileRound (fun _ _ => Action.fail (.unbounded schema.typeName)) schema root
  | rounds + 1, schema, root =>
    compileRound (fun full d => compileWithin rounds full (some d)) schema root

/-- Compiles a schema, whose root type may be given: an extracted schema lists its root, so one
more round is enough. -/
def compile (schema : Schema) (root : Option Descriptor) : Action Engine Codec :=
  compileWithin 1 schema root

def codecOf (t : MessageType) : Action Engine Codec := do
  let schema ← schemaOf t
  let e ← Action.get
  match e.compiled.get? schema.typeName with
  | some codec =>
    count fun c => { c with compileHits := c.compileHits + 1 }
    return codec
  | none =>
    count fun c => { c with compileMisses := c.compileMisses + 1 }
    Action.report (.compiling schema.typeName)
    compile schema (some t.describe)

def codecOfSchema (schema : Schema) : Action Engine Codec := do
  let e ← Action.get
  match e.compiled.get? schema.typeName with
  | some codec =>
    count fun c => { c with compileHits := c.compileHits + 1 }
    return codec
  | none =>
    count fun c => { c with compileMisses := c.compileMisses + 1 }
    compile schema none

def codecOfName (typeName : String) : Action Engine Codec := do
  let e ← Action.get
  match e.compiled.get? typeName with
  | some codec => return codec
  | none =>
    let d ← resolve typeName
    let schema ← extract d
    compile schema (some d)

end SchemaCodec.Engine
