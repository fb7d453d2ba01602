import SchemaCodec.Engine.Compilation
import SchemaCodec.Plan.Codec

/-! # Dynamic values

Values are written and read by a schema, or by the name of a type that is known already.
-/

namespace SchemaCodec.Engine

def serializeValue (schema : Schema) (v : Value) : Action Engine (List UInt8) := do
  let codec ← codecOfSchema schema
  Action.ofExcept (codec.toBytes v)

def valueSize (schema : Schema) (v : Value) : Action Engine Nat := do
  let codec ← codecOfSchema schema
  Action.ofExcept (codec.exactSize v)

def serializeValueInto (schema : Schema) (v : Value) : Action (Engine × Sink) Unit := do
  let codec ← Action.first (codecOfSchema schema)
  Action.second (Action.ofStateful (codec.encode v))

def deserializeValueFrom (schema : Schema) : Action (Engine × Source) Value := do
  let codec ← Action.first (codecOfSchema schema)
  Action.second (Action.ofStateful codec.decode)

def deserializeValue (schema : Schema) (bytes : List UInt8) : Action Engine Value :=
  Action.supplied (Source.ofBytes bytes) (deserializeValueFrom schema)

def deserializeNamed (typeName : String) (bytes : List UInt8) : Action Engine Value := do
  let codec ← codecOfName typeName
  Action.supplied (Source.ofBytes bytes) (Action.second (Action.ofStateful codec.decode))

end SchemaCodec.Engine
