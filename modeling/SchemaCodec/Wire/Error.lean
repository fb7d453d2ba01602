import SchemaCodec.Text.Hex

/-! # Wire errors

What can go wrong between bytes and scalars. Offsets count from the beginning of the buffer or
stream at hand.
-/

namespace SchemaCodec

inductive WireError where
  /-- A write needs more room than the buffer has left. -/
  | bufferTooSmall (offset : Nat)
  /-- A write is to begin beyond the end of a buffer. -/
  | offsetPastEnd (offset length : Nat)
  /-- A read wants more bytes than the buffer has left. -/
  | endOfBuffer (offset : Nat)
  /-- A read wants more bytes than the stream has left. -/
  | endOfStream (offset : Nat)
  /-- The byte count of a run does not fit in a machine word. -/
  | runOverflow (count : Nat)
  /-- A word is no Unicode scalar value. -/
  | notCharacter (word : Nat)
  /-- The stream itself failed. -/
  | stream (fault : String)
  deriving DecidableEq, Repr

namespace WireError

def message : WireError → String
  | bufferTooSmall offset => "write failed at offset " ++ toString offset ++ ": buffer too small"
  | offsetPastEnd offset length =>
    "write failed at offset " ++ toString offset ++ ": offset past end of " ++ toString length ++
      "-byte buffer"
  | endOfBuffer offset =>
    "read failed at offset " ++ toString offset ++ ": unexpected end of buffer"
  | endOfStream offset =>
    "read failed at offset " ++ toString offset ++ ": unexpected end of stream"
  | runOverflow count => "invalid data: element count " ++ toString count ++ " overflows"
  | notCharacter word =>
    "invalid data: 0x" ++ String.ofList ((Hex.digits 8 word).map Char.toUpper) ++
      " is not a Unicode scalar value"
  | stream fault => "I/O error: " ++ fault

def fault? : WireError → Option String
  | stream fault => some fault
  | _ => none

example : (notCharacter 0xD800).message =
    "invalid data: 0x0000D800 is not a Unicode scalar value" := by decide

end WireError

end SchemaCodec
