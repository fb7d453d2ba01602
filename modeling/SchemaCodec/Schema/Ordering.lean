import SchemaCodec.Error
import SchemaCodec.Schema.Basic

/-! # Ordering

Types are listed in repeated passes: a pass lists, in the order of discovery, every type whose
needs are all listed. A pass that lists nothing means that the types left wait for each other.
-/

namespace SchemaCodec.Ordering

/-- A type to be listed, with the names of the types that it embeds. -/
structure Entry where
  node : Node
  needs : List String
  deriving DecidableEq

namespace Entry

def name (e : Entry) : String := e.node.typeName

def ready (e : Entry) (listed : List Entry) : Bool :=
  e.needs.all fun need => listed.any (·.name = need)

end Entry

/-- One pass: the listed types afterwards, and the types still left. -/
def pass : List Entry → List Entry → List Entry × List Entry
  | listed, [] => (listed, [])
  | listed, e :: rest =>
    if e.ready listed then pass (listed ++ [e]) rest
    else
      let (listed, left) := pass listed rest
      (listed, e :: left)

def passes : Nat → List Entry → List Entry → Except Error (List Entry)
  | _, listed, [] => .ok listed
  | 0, _, left => .error (.dependencyCycle (left.map Entry.name))
  | n + 1, listed, pending =>
    let (listed, left) := pass listed pending
    if left.length = pending.length then .error (.dependencyCycle (left.map Entry.name))
    else passes n listed left

def order (entries : List Entry) : Except Error (List Entry) := passes entries.length [] entries

end SchemaCodec.Ordering
