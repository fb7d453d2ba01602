import SchemaCodec.Json.Basic
import SchemaCodec.Text.Hex

/-! # Writing JSON

Two layouts: without any blanks, and with two of them for each level. Only quotes, backslashes and
control characters are escaped.
-/

namespace SchemaCodec.Json

def unitEscape (u : Nat) : List Char := '\\' :: 'u' :: Hex.digits 4 u

def escape (c : Char) : List Char :=
  if c = '"' then ['\\', '"']
  else if c = '\\' then ['\\', '\\']
  else if c = '\x08' then ['\\', 'b']
  else if c = '\x0c' then ['\\', 'f']
  else if c = '\n' then ['\\', 'n']
  else if c = '\r' then ['\\', 'r']
  else if c = '\t' then ['\\', 't']
  else if c.toNat < 0x20 then unitEscape c.toNat
  else [c]

def Piece.print : Piece → List Char
  | .char c => escape c
  | .surrogate u => unitEscape u

def quote (ps : List Piece) : List Char := '"' :: ps.flatMap Piece.print ++ ['"']

/-- How a layout separates things: what begins a line at a depth, and what follows a colon. -/
structure Layout where
  line : Nat → List Char
  colon : List Char

def Layout.compact : Layout := ⟨fun _ => [], [':']⟩

def Layout.pretty : Layout :=
  ⟨fun depth => '\n' :: List.replicate (2 * depth) ' ', [':', ' ']⟩

mutual

def print (layout : Layout) (depth : Nat) : Json → List Char
  | null => ['n', 'u', 'l', 'l']
  | bool true => ['t', 'r', 'u', 'e']
  | bool false => ['f', 'a', 'l', 's', 'e']
  | number spelling => spelling
  | string ps => quote ps
  | array [] => ['[', ']']
  | array (item :: items) =>
    '[' :: layout.line (depth + 1) ++ print layout (depth + 1) item ++
      printItems layout (depth + 1) items ++ layout.line depth ++ [']']
  | object [] => ['{', '}']
  | object ((key, value) :: members) =>
    '{' :: layout.line (depth + 1) ++ quote key ++ layout.colon ++
      print layout (depth + 1) value ++ printMembers layout (depth + 1) members ++
      layout.line depth ++ ['}']

def printItems (layout : Layout) (depth : Nat) : List Json → List Char
  | [] => []
  | item :: items =>
    ',' :: layout.line depth ++ print layout depth item ++ printItems layout depth items

def printMembers (layout : Layout) (depth : Nat) : List (List Piece × Json) → List Char
  | [] => []
  | (key, value) :: members =>
    ',' :: layout.line depth ++ quote key ++ layout.colon ++ print layout depth value ++
      printMembers layout depth members

end

def render (layout : Layout) (v : Json) : String := String.ofList (print layout 0 v)

example : (object [(pieces "a", array [null, .number ['1']]), (pieces "b", array [])]).render
    .compact = "\x7b\"a\":[null,1],\"b\":[]\x7d" := by decide

end SchemaCodec.Json
