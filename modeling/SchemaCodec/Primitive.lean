import SchemaCodec.Scalar.Basic

/-! # Primitive types

The leaves of every type: the scalars, text, and decimals, which have a name but no encoding. A
name is canonical or one of several accepted spellings.
-/

namespace SchemaCodec

inductive Primitive
  | scalar (k : Scalar)
  | string
  | decimal
  deriving DecidableEq, Repr

namespace Primitive

def all : List Primitive := Scalar.all.map scalar ++ [string, decimal]

def name : Primitive → String
  | scalar k => k.name
  | string => "String"
  | decimal => "Decimal"

def ofName? (name : String) : Option Primitive := all.find? (·.name = name)

def scalarSpellings : List (String × Scalar) :=
  [("bool", .boolean),
   ("i8", .int8), ("SByte", .int8),
   ("i16", .int16), ("Short", .int16),
   ("i32", .int32), ("Int", .int32),
   ("i64", .int64), ("Long", .int64),
   ("u8", .uint8), ("Byte", .uint8),
   ("u16", .uint16), ("UShort", .uint16),
   ("u32", .uint32), ("UInt", .uint32),
   ("u64", .uint64), ("ULong", .uint64),
   ("f32", .float32), ("Single", .float32), ("Float", .float32),
   ("f64", .float64), ("Double", .float64),
   ("char", .char)]

def spellings : List (String × Primitive) :=
  scalarSpellings.map (fun (s, k) => (s, scalar k)) ++
    [("str", string), ("string", string), ("decimal", decimal)]

/-- A name without one leading `System.`. -/
def dropNamespace (name : String) : String :=
  let mark := "System.".toList
  if mark.isPrefixOf name.toList then String.ofList (name.toList.drop mark.length) else name

def ofSpelling? (name : String) : Option Primitive :=
  let name := dropNamespace name
  (ofName? name).or (spellings.lookup name)

def width? : Primitive → Option Nat
  | scalar k => some k.width
  | _ => none

example : ofSpelling? "System.Single" = some (scalar .float32) := by decide

example : ofSpelling? "System.System.Int32" = none := by decide

end Primitive

end SchemaCodec
