import SchemaCodec.Registry.Resolution
import SchemaCodec.Schema.Basic

/-! # Synthesis

A schema node whose name is unknown becomes a record with one member for each of its children.
-/

namespace SchemaCodec.Registry

/-- Notes a record made from a node, unless its name was noted while its members were resolved. -/
def addSynthesized (typeName : String) (members : List (String × Descriptor)) :
    Action Registry Descriptor := do
  let r ← Action.get
  match r.resolved.get? typeName with
  | some d => return d
  | none =>
    let d := Descriptor.built typeName (TypeName.short typeName) .synthesized members
    Action.report (.synthesized typeName members.length)
    Action.modify fun r =>
      { r with resolved := r.resolved.add typeName d, synthesized := r.synthesized + 1 }
    return d

mutual

def resolveNode : Node → Action Registry Descriptor
  | .mk _ typeName children =>
    Action.recover (resolve typeName) fun
      | .typeNotFound _ =>
        match children with
        | [] => none
        | child :: others => some do
          let members ← resolveChildren typeName (child :: others)
          addSynthesized typeName members
      | _ => none

def resolveChildren (owner : String) : List Node → Action Registry (List (String × Descriptor))
  | [] => pure []
  | child :: others =>
    match child.name with
    | none => Action.fail (.malformed (.unnamedChild owner))
    | some name => do
      let d ← resolveNode child
      let members ← resolveChildren owner others
      return (name, d) :: members

end

end SchemaCodec.Registry
