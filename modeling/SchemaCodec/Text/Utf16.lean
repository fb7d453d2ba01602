/-! # UTF-16 code units

A character of the basic plane is one unit; any other is a high and a low surrogate.
-/

namespace SchemaCodec.Utf16

def unitsOf (c : Char) : List Nat :=
  let n := c.toNat
  if n < 0x10000 then [n]
  else [0xD800 + (n - 0x10000) / 0x400, 0xDC00 + (n - 0x10000) % 0x400]

def units (cs : List Char) : List Nat := cs.flatMap unitsOf

theorem units_append (s t : List Char) : units (s ++ t) = units s ++ units t := by
  simp [units]

def isHigh (u : Nat) : Bool := 0xD800 ≤ u && u ≤ 0xDBFF

def isLow (u : Nat) : Bool := 0xDC00 ≤ u && u ≤ 0xDFFF

def pair (high low : Nat) : Char :=
  Char.ofNat (0x10000 + (high - 0xD800) * 0x400 + (low - 0xDC00))

example : units ['a', '😀'] = [0x61, 0xD83D, 0xDE00] := by decide

example : pair 0xD83D 0xDE00 = '😀' := by decide

end SchemaCodec.Utf16
