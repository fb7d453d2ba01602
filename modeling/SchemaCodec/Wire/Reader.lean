import SchemaCodec.Scalar.Bytes
import SchemaCodec.Wire.Source

/-! # Typed reads

Scalars and runs of scalars from a source. A run is read as a whole before its words are looked
at.
-/

namespace SchemaCodec

/-- One more than the largest byte count of a run. -/
def wordBound : Nat := 0x10000000000000000

namespace Scalar

def ofWord (k : Scalar) (n : Nat) : Except WireError k.Carrier :=
  match k.ofWord? n with
  | some x => .ok x
  | none => .error (.notCharacter n)

def ofWords (k : Scalar) : List Nat → Except WireError (List k.Carrier)
  | [] => .ok []
  | n :: ns =>
    match k.ofWord n with
    | .error e => .error e
    | .ok x => (x :: ·) <$> ofWords k ns

end Scalar

namespace LittleEndian

def words (width : Nat) : Nat → List UInt8 → List Nat
  | 0, _ => []
  | count + 1, bytes => join (bytes.take width) :: words width count (bytes.drop width)

end LittleEndian

namespace Reader

def ofExcept {α : Type} (outcome : Except WireError α) : Reader α := fun source =>
  match outcome with
  | .ok x => .ok x source
  | .error e => .error e source

def block (count width : Nat) : Reader (List UInt8) :=
  if count * width < wordBound then Source.read (count * width)
  else throw (.runOverflow count)

def scalar (k : Scalar) : Reader k.Carrier := do
  let bytes ← Source.read k.width
  ofExcept (k.ofWord (LittleEndian.join bytes))

def array (k : Scalar) (count : Nat) : Reader (List k.Carrier) := do
  let bytes ← block count k.width
  ofExcept (k.ofWords (LittleEndian.words k.width count bytes))

end Reader

example : Reader.array .int16 2 (.ofBytes [1, 0, 0xFF, 0xFF, 7]) =
    EStateM.Result.ok [1, -1] (.buffer 4 [7]) := rfl

end SchemaCodec
