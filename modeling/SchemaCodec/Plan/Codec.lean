import SchemaCodec.Plan.Compile
import SchemaCodec.Plan.Decode
import SchemaCodec.Plan.Encode
import SchemaCodec.Plan.Size

/-! # Codecs

What a compiled coding does with values, sinks and sources.
-/

namespace SchemaCodec.Codec

def encode (c : Codec) (v : Value) : EStateM Error Sink Unit := c.plan.encode v

def decode (c : Codec) : Decoder Value := c.plan.decode c.limits

def exactSize (c : Codec) (v : Value) : Except Error Nat := c.plan.exactSize v

/-- The bytes of a value, written into a buffer of exactly their number. -/
def toBytes (c : Codec) (v : Value) : Except Error (List UInt8) := do
  let size ← c.exactSize v
  match c.encode v (.ofBuffer (List.replicate size 0)) with
  | .ok () sink => .ok sink.contents
  | .error e _ => .error e

end SchemaCodec.Codec
