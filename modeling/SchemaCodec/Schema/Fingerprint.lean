import SchemaCodec.Text.Utf16

/-! # Fingerprints

A polynomial hash of a text over its UTF-16 code units, in signed 64-bit words with the truncating
remainder. Units below `a` count negatively, so a fingerprint can be negative.
-/

namespace SchemaCodec.Fingerprint

def base : Int64 := 31

def modulus : Int64 := 1000000009

/-- The hash of the units so far and the power of the base for the next one. -/
structure Rolling where
  hash : Int64
  power : Int64
  deriving DecidableEq, Repr

/-- The weight of a code unit, one for `a`. -/
def weight (unit : Nat) : Int64 := Int64.ofNat unit - 96

def Rolling.step (r : Rolling) (unit : Nat) : Rolling :=
  ⟨(r.hash + weight unit * r.power) % modulus, (r.power * base) % modulus⟩

def Rolling.start : Rolling := ⟨0, 1⟩

def ofString (text : String) : Int64 :=
  ((Utf16.units text.toList).foldl Rolling.step .start).hash

example : ofString "abc" = 2946 := by decide

example : ofString "A" = -31 := by decide

end SchemaCodec.Fingerprint
