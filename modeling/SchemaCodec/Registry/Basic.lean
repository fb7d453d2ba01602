import SchemaCodec.Action
import SchemaCodec.Cache
import SchemaCodec.Registry.Generic

/-! # The registry

What is known by name: the types resolved so far, the declared types and the generic definitions.
The first type under a name stays; a generic definition is replaced by a later one.
-/

namespace SchemaCodec

structure Registry where
  resolved : Cache String Descriptor
  declared : Cache String Descriptor
  generics : Cache String Generic
  synthesized : Nat

namespace Registry

def empty : Registry := ⟨.empty, .empty, .empty, 0⟩

def declare (d : Descriptor) : Action Registry Unit := do
  let r ← Action.get
  if !r.declared.contains d.name then
    Action.report (.declared d.name)
    Action.modify fun r => { r with declared := r.declared.add d.name d }

def declareGeneric (g : Generic) : Action Registry Unit := do
  Action.report (.genericDeclared g.base g.arity)
  Action.modify fun r => { r with generics := r.generics.put g.base g }

/-- Notes the type of a name, and yields the type under that name. -/
def remember (name : String) (d : Descriptor) : Action Registry Descriptor := do
  let r ← Action.get
  Action.modify fun r => { r with resolved := r.resolved.add name d }
  return r.resolved.getOr name d

end Registry

end SchemaCodec
