import SchemaCodec.Scalar.Basic

/-! # Scalars as bytes

A scalar travels as a word of its kind's width, least significant byte first. Every word stands
for a scalar, except that a character's word must be a Unicode scalar value; any word but zero
stands for true.
-/

namespace SchemaCodec

namespace LittleEndian

/-- The `width` bytes of a number, the lowest first. -/
def split : Nat → Nat → List UInt8
  | 0, _ => []
  | width + 1, n => UInt8.ofNat n :: split width (n / 256)

def join : List UInt8 → Nat
  | [] => 0
  | b :: bs => b.toNat + 256 * join bs

def capacity : Nat → Nat
  | 0 => 1
  | width + 1 => 256 * capacity width

theorem length_split (width n : Nat) : (split width n).length = width := by
  induction width generalizing n with
  | zero => rfl
  | succ width ih => simp [split, ih]

theorem join_split {width n : Nat} (h : n < capacity width) : join (split width n) = n := by
  induction width generalizing n with
  | zero => simp [split, join, capacity] at h ⊢; omega
  | succ width ih =>
    rw [capacity] at h
    rw [split, join, ih (by omega), UInt8.toNat_ofNat']
    omega

end LittleEndian

namespace Scalar

def toWord : (k : Scalar) → k.Carrier → Nat
  | boolean, x => x.toNat
  | int8, x => x.toUInt8.toNat
  | int16, x => x.toUInt16.toNat
  | int32, x => x.toUInt32.toNat
  | int64, x => x.toUInt64.toNat
  | uint8, x => x.toNat
  | uint16, x => x.toNat
  | uint32, x => x.toNat
  | uint64, x => x.toNat
  | float32, x => x.bits.toNat
  | float64, x => x.bits.toNat
  | char, x => x.toNat

def ofWord? : (k : Scalar) → Nat → Option k.Carrier
  | boolean, n => some (n != 0)
  | int8, n => some (UInt8.ofNat n).toInt8
  | int16, n => some (UInt16.ofNat n).toInt16
  | int32, n => some (UInt32.ofNat n).toInt32
  | int64, n => some (UInt64.ofNat n).toInt64
  | uint8, n => some (UInt8.ofNat n)
  | uint16, n => some (UInt16.ofNat n)
  | uint32, n => some (UInt32.ofNat n)
  | uint64, n => some (UInt64.ofNat n)
  | float32, n => some ⟨UInt32.ofNat n⟩
  | float64, n => some ⟨UInt64.ofNat n⟩
  | char, n => if n.isValidChar then some (Char.ofNat n) else none

def toBytes (k : Scalar) (x : k.Carrier) : List UInt8 := LittleEndian.split k.width (k.toWord x)

def runBytes (k : Scalar) (xs : List k.Carrier) : List UInt8 := xs.flatMap k.toBytes

theorem toWord_lt (k : Scalar) (x : k.Carrier) : k.toWord x < LittleEndian.capacity k.width := by
  cases k
  case boolean => cases x <;> decide
  case int8 => exact x.toUInt8.toNat_lt
  case int16 => exact x.toUInt16.toNat_lt
  case int32 => exact x.toUInt32.toNat_lt
  case int64 => exact x.toUInt64.toNat_lt
  case uint8 => exact x.toNat_lt
  case uint16 => exact x.toNat_lt
  case uint32 => exact x.toNat_lt
  case uint64 => exact x.toNat_lt
  case float32 => exact x.bits.toNat_lt
  case float64 => exact x.bits.toNat_lt
  case char => exact x.val.toNat_lt

theorem ofWord?_toWord (k : Scalar) (x : k.Carrier) : k.ofWord? (k.toWord x) = some x := by
  cases k
  case boolean => cases x <;> rfl
  case char => exact (if_pos x.valid).trans (congrArg some (Char.ofNat_toNat x))
  all_goals simp [ofWord?, toWord]

theorem ofWord?_join_toBytes (k : Scalar) (x : k.Carrier) :
    k.ofWord? (LittleEndian.join (k.toBytes x)) = some x := by
  rw [toBytes, LittleEndian.join_split (toWord_lt k x), ofWord?_toWord]

theorem length_toBytes (k : Scalar) (x : k.Carrier) : (k.toBytes x).length = k.width :=
  LittleEndian.length_split _ _

end Scalar

example : Scalar.toBytes .int16 (-2) = [0xFE, 0xFF] := by decide

example : Scalar.ofWord? .char 0xD800 = none := by decide

end SchemaCodec
