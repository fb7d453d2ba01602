import SchemaCodec.Value.Basic

/-! # Equality of values

Two values are the same if they have one shape and the same parts, where floats are compared as
numbers. An array and the list of its elements are different values.
-/

namespace SchemaCodec

def Scalar.sameRun (k : Scalar) : List k.Carrier → List k.Carrier → Bool
  | [], [] => true
  | x :: xs, y :: ys => k.same x y && sameRun k xs ys
  | _, _ => false

namespace Value

mutual

def same : Value → Value → Bool
  | scalar k x, scalar l y => if h : l = k then k.same x (h ▸ y) else false
  | text s, text t => s == t
  | array k xs, array l ys => if h : l = k then k.sameRun xs (h ▸ ys) else false
  | list items, list others => sameItems items others
  | record name fields, record other others => name == other && sameFields fields others
  | _, _ => false

def sameItems : List Value → List Value → Bool
  | [], [] => true
  | v :: vs, w :: ws => same v w && sameItems vs ws
  | _, _ => false

def sameFields : List (String × Value) → List (String × Value) → Bool
  | [], [] => true
  | (n, v) :: vs, (m, w) :: ws => n == m && same v w && sameFields vs ws
  | _, _ => false

end

end Value

def Record.same (r s : Record) : Bool := (Value.ofRecord r).same (.ofRecord s)

example : Value.same (.array .uint8 [1, 2]) (.array .uint8 [1, 2]) = true := by decide

example : Value.same (.array .uint8 [1]) (.list [.scalar .uint8 1]) = false := by decide

end SchemaCodec
