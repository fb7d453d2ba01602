import SchemaCodec.Error
import SchemaCodec.Plan.Basic
import SchemaCodec.Wire.Reader

/-! # Decoding

What a plan reads from a source. A count is checked as soon as it is read, before anything that it
counts.
-/

namespace SchemaCodec

/-- A step that reads values: it leaves the source behind also when it fails. -/
abbrev Decoder := EStateM Error Source

namespace Decoder

variable {α : Type}

def ofReader (reader : Reader α) : Decoder α := fun source =>
  match reader source with
  | .ok x source => .ok x source
  | .error e source => .error (.wire e) source

def position : Decoder Nat := fun source => .ok source.position source

/-- Reads a count that may not be above a limit. -/
def count (counted : Counted) (limit : Nat) : Decoder Nat := do
  let offset ← position
  let raw ← ofReader (Reader.scalar .int32)
  if raw.toInt < 0 then throw (.malformed (.negativeCount counted raw.toInt offset))
  else
    let count := raw.toInt.toNat
    if limit < count then throw (.malformed (.countOverLimit counted count offset limit))
    else return count

def times (decoder : Decoder α) : Nat → Decoder (List α)
  | 0 => return []
  | n + 1 => do
    let x ← decoder
    let xs ← times decoder n
    return x :: xs

def text (limit : Nat) : Decoder String := do
  let length ← count .string limit
  let bytes ← ofReader (Reader.block length 1)
  match Utf8.decode bytes with
  | .ok s => return s
  | .error fault => throw (.malformed (.notUtf8 fault))

end Decoder

namespace Plan

variable (limits : Limits)

mutual

def decode : Plan → Decoder Value
  | scalar k => do
    let x ← Decoder.ofReader (Reader.scalar k)
    return .scalar k x
  | text => do
    let s ← Decoder.text limits.maxText
    return .text s
  | bulk k => do
    let count ← Decoder.count .sequence limits.maxSequence
    let xs ← Decoder.ofReader (Reader.array k count)
    return .array k xs
  | elements element => do
    let count ← Decoder.count .sequence limits.maxSequence
    let items ← Decoder.times (decode element) count
    return .list items
  | record typeName fields => do
    let values ← decodeFields fields
    return .record typeName (Fields.ofList values)

def decodeFields : List (String × Plan) → Decoder (List (String × Value))
  | [] => return []
  | (name, plan) :: rest => do
    let v ← decode plan
    let vs ← decodeFields rest
    return (name, v) :: vs

end

end Plan

end SchemaCodec
