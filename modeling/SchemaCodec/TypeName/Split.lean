import SchemaCodec.Text.Blank

/-! # Splitting outside brackets

A text is cut at every delimiter that stands outside all brackets. Closing brackets without a
partner are passed over, so the depth never falls below zero.
-/

namespace SchemaCodec.TypeName

/-- What cuts a text, and the pair of brackets that shields it. -/
structure Cutter where
  delimiter : List Char
  opening : Char
  closing : Char

namespace Cutter

variable (k : Cutter)

def step (depth : Nat) (c : Char) : Nat :=
  if c = k.opening then depth + 1 else if c = k.closing then depth - 1 else depth

/-- The first piece and the further pieces; `skip` characters of a delimiter are still to pass. -/
def scan : Nat → Nat → List Char → List Char × List (List Char)
  | _, _, [] => ([], [])
  | skip + 1, depth, _ :: rest => scan skip depth rest
  | 0, depth, c :: rest =>
    if depth = 0 ∧ k.delimiter.isPrefixOf (c :: rest) then
      let (piece, pieces) := scan (k.delimiter.length - 1) 0 rest
      ([], piece :: pieces)
    else
      let (piece, pieces) := scan 0 (k.step depth c) rest
      (c :: piece, pieces)

/-- The pieces of a text, untrimmed; an empty delimiter cuts nothing. -/
def cut (cs : List Char) : List Char × List (List Char) :=
  if k.delimiter = [] then (cs, []) else k.scan 0 0 cs

end Cutter

def splitNested (text : List Char) (k : Cutter) : List (List Char) :=
  let (piece, pieces) := k.cut text
  (piece :: pieces).map trim

/-- The trimmed pieces that are not empty; a text without a delimiter to look for is kept whole. -/
def splitNonempty (text : List Char) (k : Cutter) : List (List Char) :=
  if k.delimiter = [] then [trim text] else (splitNested text k).filter (· ≠ [])

example : splitNested "a, P<b, c>, d".toList ⟨[','], '<', '>'⟩ =
    ["a".toList, "P<b, c>".toList, "d".toList] := by decide

example : splitNested "X[][]".toList ⟨['[', ']'], '<', '>'⟩ = ["X".toList, [], []] := by decide

end SchemaCodec.TypeName
