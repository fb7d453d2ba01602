import SchemaCodec.Engine.Compilation
import SchemaCodec.Plan.Codec
import SchemaCodec.Program.Conversion

/-! # Messages

Instances of the program's types are written and read through the codings of their types.
-/

namespace SchemaCodec.Engine

def prepare (t : MessageType) (x : Instance) : Action Engine (Codec × Value) := do
  let codec ← codecOf t
  let e ← Action.get
  let v ← Action.ofExcept (e.catalog.toValue x t)
  return (codec, v)

def serialize (t : MessageType) (x : Instance) : Action Engine (List UInt8) := do
  let (codec, v) ← prepare t x
  Action.ofExcept (codec.toBytes v)

def messageSize (t : MessageType) (x : Instance) : Action Engine Nat := do
  let (codec, v) ← prepare t x
  Action.ofExcept (codec.exactSize v)

def serializeInto (t : MessageType) (x : Instance) : Action (Engine × Sink) Unit := do
  let (codec, v) ← Action.first (prepare t x)
  Action.second (Action.ofStateful (codec.encode v))

/-- Writes a value into a buffer from an offset on, and yields the number of bytes written. -/
def encodeAt (codec : Codec) (v : Value) (offset : Nat) : EStateM Error (List UInt8) Nat :=
  fun buffer =>
    if buffer.length < offset then
      .error (.wire (.offsetPastEnd offset buffer.length)) buffer
    else
      match codec.encode v (.ofBuffer (buffer.drop offset)) with
      | .ok () sink => .ok sink.position (buffer.take offset ++ sink.contents)
      | .error e sink => .error e (buffer.take offset ++ sink.contents)

def serializeAt (t : MessageType) (x : Instance) (offset : Nat) :
    Action (Engine × List UInt8) Nat := do
  let (codec, v) ← Action.first (prepare t x)
  Action.second (Action.ofStateful (encodeAt codec v offset))

def deserializeFrom (t : MessageType) : Action (Engine × Source) Instance := do
  let codec ← Action.first (codecOf t)
  let v ← Action.second (Action.ofStateful codec.decode)
  let e ← Action.get
  Action.ofExcept (e.1.catalog.ofValue v t)

def deserialize (t : MessageType) (bytes : List UInt8) : Action Engine Instance :=
  Action.supplied (Source.ofBytes bytes) (deserializeFrom t)

end SchemaCodec.Engine
