import SchemaCodec.Registry.Basic

/-! # Resolution

A name is resolved through what was resolved before, then the declared types, then the generic
definitions, whose arguments are resolved first, and last the primitives. Marks of sequences are
taken off before and put back after. Names under resolution are kept in a list, and meeting one of
them again is a cycle.
-/

namespace SchemaCodec

namespace Registry

variable (resolve : String → Action Registry Descriptor)

/-- The type of a generic's member, with arguments in the places of the parameters. -/
def bindMember (args : List Descriptor) : Descriptor → Action Registry Descriptor
  | .primitive p => pure (.primitive p)
  | .parameter i =>
    match args[i]? with
    | some arg => pure arg
    | none => Action.fail (.notSerializable (TypeName.parameter i) .parameterOutOfRange)
  | .sequence container element =>
    if TypeName.hasParameters element.name then
      Descriptor.sequence container <$> bindMember args element
    else pure (.sequence container element)
  | record =>
    if TypeName.hasParameters record.name then
      resolve (TypeName.substitute record.name (args.map Descriptor.name))
    else pure record

def instantiate (g : Generic) (args : List Descriptor) : Action Registry Descriptor := do
  if args.length ≠ g.arity then
    Action.fail (.typeMismatch (toString g.arity ++ " type arguments for " ++ g.base)
      (toString args.length))
  else
    let members ← Action.traverse (fun (name, d) => do
      let bound ← bindMember resolve args d
      return (name, bound)) g.members
    let name := TypeName.generic g.base (args.map Descriptor.name)
    Action.report (.instantiated name)
    return .built name (TypeName.short g.base) .instantiated members

/-- The generic definition that a name applies, with the names of the arguments. -/
def application? (r : Registry) (base : String) : Option (Generic × List String) :=
  match TypeName.parseGeneric base with
  | none => none
  | some (generic, args) => (r.generics.get? generic).map (·, args)

def resolveBase (base : String) : Action Registry (Option Descriptor) := do
  let r ← Action.get
  match (r.resolved.get? base).or (r.declared.get? base) with
  | some d => return some d
  | none =>
    match r.application? base with
    | some (g, names) =>
      let args ← Action.traverse resolve names
      let d ← instantiate resolve g args
      return some d
    | none => return (Primitive.ofSpelling? base).map .primitive

/-- The type of a name, with at most `depth` names under resolution at once. -/
def resolveWithin : Nat → List String → String → Action Registry Descriptor
  | depth, pending, name => do
    let r ← Action.get
    match r.resolved.get? name with
    | some d => return d
    | none =>
      if name ∈ pending then Action.fail (.dependencyCycle pending)
      else
        match depth with
        | 0 => Action.fail (.unbounded name)
        | depth + 1 =>
          let (base, levels) := TypeName.splitArrays name
          let found ← resolveBase (resolveWithin depth (pending ++ [name])) base
          match found with
          | none => Action.fail (.typeNotFound name)
          | some d => remember name (d.arrays levels)

/-- How many names may be under resolution at once. The bound stands in for the stack: resolution
calls itself for every name that it needs, and nothing but the stack limits how often. -/
def depthLimit : Nat := 10000

end Registry

def Registry.resolve (name : String) : Action Registry Descriptor :=
  Registry.resolveWithin Registry.depthLimit [] name

end SchemaCodec
