/-! # Scalars

The twelve kinds of fixed-width values. Floats are kept as their bits, so that every payload of a
NaN survives; their own equality is the comparison of numbers.
-/

namespace SchemaCodec

structure Binary32 where
  bits : UInt32
  deriving DecidableEq, Repr

structure Binary64 where
  bits : UInt64
  deriving DecidableEq, Repr

/-- Equality of numbers: no NaN equals anything, and the two zeros are equal. The magnitudes `m`
and `n` are the bits without the sign, `inf` is the magnitude of infinity. -/
def sameNumber (a b m n inf : Nat) : Bool :=
  m ≤ inf && n ≤ inf && (a == b || (m == 0 && n == 0))

def Binary32.same (a b : Binary32) : Bool :=
  sameNumber a.bits.toNat b.bits.toNat (a.bits.toNat % 0x80000000) (b.bits.toNat % 0x80000000)
    0x7F800000

def Binary64.same (a b : Binary64) : Bool :=
  sameNumber a.bits.toNat b.bits.toNat (a.bits.toNat % 0x8000000000000000)
    (b.bits.toNat % 0x8000000000000000) 0x7FF0000000000000

inductive Scalar
  | boolean | int8 | int16 | int32 | int64 | uint8 | uint16 | uint32 | uint64
  | float32 | float64 | char
  deriving DecidableEq, Repr

namespace Scalar

def all : List Scalar :=
  [boolean, int8, int16, int32, int64, uint8, uint16, uint32, uint64, float32, float64, char]

def name : Scalar → String
  | boolean => "Boolean"
  | int8 => "Int8"
  | int16 => "Int16"
  | int32 => "Int32"
  | int64 => "Int64"
  | uint8 => "UInt8"
  | uint16 => "UInt16"
  | uint32 => "UInt32"
  | uint64 => "UInt64"
  | float32 => "Float32"
  | float64 => "Float64"
  | char => "Char"

/-- The encoded size in bytes; a character travels as its 32-bit scalar value. -/
def width : Scalar → Nat
  | boolean | int8 | uint8 => 1
  | int16 | uint16 => 2
  | int32 | uint32 | float32 | char => 4
  | int64 | uint64 | float64 => 8

theorem width_pos (k : Scalar) : 0 < k.width := by cases k <;> decide

theorem width_le (k : Scalar) : k.width ≤ 8 := by cases k <;> decide

abbrev Carrier : Scalar → Type
  | boolean => Bool
  | int8 => Int8
  | int16 => Int16
  | int32 => Int32
  | int64 => Int64
  | uint8 => UInt8
  | uint16 => UInt16
  | uint32 => UInt32
  | uint64 => UInt64
  | float32 => Binary32
  | float64 => Binary64
  | char => Char

instance decEqCarrier : (k : Scalar) → DecidableEq k.Carrier
  | boolean => inferInstanceAs (DecidableEq Bool)
  | int8 => inferInstanceAs (DecidableEq Int8)
  | int16 => inferInstanceAs (DecidableEq Int16)
  | int32 => inferInstanceAs (DecidableEq Int32)
  | int64 => inferInstanceAs (DecidableEq Int64)
  | uint8 => inferInstanceAs (DecidableEq UInt8)
  | uint16 => inferInstanceAs (DecidableEq UInt16)
  | uint32 => inferInstanceAs (DecidableEq UInt32)
  | uint64 => inferInstanceAs (DecidableEq UInt64)
  | float32 => inferInstanceAs (DecidableEq Binary32)
  | float64 => inferInstanceAs (DecidableEq Binary64)
  | char => inferInstanceAs (DecidableEq Char)

/-- Equality as the program compares two values of a kind: floats are compared as numbers. -/
def same : (k : Scalar) → k.Carrier → k.Carrier → Bool
  | float32, a, b => a.same b
  | float64, a, b => a.same b
  | boolean, a, b => a == b
  | int8, a, b => a == b
  | int16, a, b => a == b
  | int32, a, b => a == b
  | int64, a, b => a == b
  | uint8, a, b => a == b
  | uint16, a, b => a == b
  | uint32, a, b => a == b
  | uint64, a, b => a == b
  | char, a, b => a == b

end Scalar

example : Scalar.same .float32 ⟨0x80000000⟩ ⟨0⟩ = true := by decide

example : Scalar.same .float64 ⟨0x7FF8000000000000⟩ ⟨0x7FF8000000000000⟩ = false := by decide

end SchemaCodec
