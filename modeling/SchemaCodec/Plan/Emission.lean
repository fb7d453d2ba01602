import SchemaCodec.Error
import SchemaCodec.Wire.Sink

/-! # Emissions

What an encoder has to say, apart from any sink: pieces of bytes, each to be written as a whole,
and the error that ended them, if one did.
-/

namespace SchemaCodec

/-- Pieces of bytes up to an error or the end. -/
structure Emission where
  pieces : List (List UInt8)
  failure : Option Error

namespace Emission

def empty : Emission := ⟨[], none⟩

def piece (bytes : List UInt8) : Emission := ⟨[bytes], none⟩

def fail (e : Error) : Emission := ⟨[], some e⟩

def append (a b : Emission) : Emission :=
  match a.failure with
  | none => ⟨a.pieces ++ b.pieces, b.failure⟩
  | some _ => a

instance : Append Emission := ⟨append⟩

def each {α : Type} (emit : α → Emission) : List α → Emission
  | [] => empty
  | x :: xs => emit x ++ each emit xs

def bytes (e : Emission) : List UInt8 := e.pieces.flatten

def writePieces : List (List UInt8) → EStateM Error Sink Unit
  | [], sink => .ok () sink
  | piece :: pieces, sink =>
    match Sink.write piece sink with
    | .ok () sink => writePieces pieces sink
    | .error e sink => .error (.wire e) sink

/-- Writes an emission: its pieces, then its error. -/
def writeTo (e : Emission) : EStateM Error Sink Unit := fun sink =>
  match writePieces e.pieces sink with
  | .ok () sink =>
    match e.failure with
    | none => .ok () sink
    | some failure => .error failure sink
  | .error failure sink => .error failure sink

end Emission

end SchemaCodec
