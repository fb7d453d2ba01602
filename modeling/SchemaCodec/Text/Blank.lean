/-! # Blank characters

The characters with the Unicode property White_Space, and text without the blanks at its ends.
-/

namespace SchemaCodec

/-- Whether a character has the Unicode property White_Space. -/
def isBlank (c : Char) : Bool :=
  let n := c.toNat
  (0x09 ≤ n && n ≤ 0x0D) || n == 0x20 || n == 0x85 || n == 0xA0 || n == 0x1680 ||
    (0x2000 ≤ n && n ≤ 0x200A) || n == 0x2028 || n == 0x2029 || n == 0x202F || n == 0x205F ||
    n == 0x3000

def trim (cs : List Char) : List Char :=
  ((cs.dropWhile isBlank).reverse.dropWhile isBlank).reverse

example : trim " \u00a0a b\u3000\n".toList = "a b".toList := by decide

example : "\u200b\u180e\ufeff".toList.all (! isBlank ·) := by decide

end SchemaCodec
