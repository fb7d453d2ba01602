import SchemaCodec.Text.Utf8
import SchemaCodec.Value.Basic
import SchemaCodec.Wire.Error

/-! # Errors

Everything that schema extraction, resolution, compilation and coding can fail with, each cause
with its data. The wording is derived from the cause.
-/

namespace SchemaCodec

/-- Why a type cannot take part in serialization. -/
inductive Obstacle where
  | decimal
  | unboundParameter
  | noDefault
  | duplicateMember (member : String)
  | genericNotRecord
  | notGeneric
  | argumentsOutOfOrder
  | parameterOutOfRange
  deriving DecidableEq, Repr

def Obstacle.message : Obstacle → String
  | decimal => "decimal values have no wire encoding"
  | unboundParameter => "unbound generic parameter"
  | noDefault => "no default constructor"
  | duplicateMember member => "duplicate member '" ++ member ++ "'"
  | genericNotRecord => "generic definitions must be records"
  | notGeneric => "not a generic type"
  | argumentsOutOfOrder => "type arguments must be Param<0>, Param<1>, ... in order"
  | parameterOutOfRange => "generic parameter index out of range"

inductive Counted
  | sequence
  | string
  deriving DecidableEq, Repr

def Counted.name : Counted → String
  | sequence => "sequence"
  | string => "string"

inductive Malformed where
  | countTooLarge (count : Nat)
  | negativeCount (counted : Counted) (count : Int) (offset : Nat)
  | countOverLimit (counted : Counted) (count offset limit : Nat)
  | notUtf8 (fault : Utf8.Fault)
  | unnamedChild (typeName : String)
  | schemaDocument
  deriving DecidableEq, Repr

def Malformed.message : Malformed → String
  | countTooLarge count => "count " ++ toString count ++ " does not fit in a 32-bit prefix"
  | negativeCount counted count offset =>
    "negative " ++ counted.name ++ " count " ++ toString count ++ " at offset " ++ toString offset
  | countOverLimit counted count offset limit =>
    counted.name ++ " count " ++ toString count ++ " at offset " ++ toString offset ++
      " exceeds limit " ++ toString limit
  | notUtf8 fault => "string is not UTF-8: " ++ fault.message
  | unnamedChild typeName => "child of '" ++ typeName ++ "' has no member name"
  | schemaDocument => "schema JSON"

/-- A failure of an operation. -/
inductive Error where
  | notSerializable (typeName : String) (obstacle : Obstacle)
  /-- The named types wait for each other. -/
  | dependencyCycle (remaining : List String)
  | typeNotFound (name : String)
  | memberMissing (typeName member : String)
  /-- A record was to be compiled before a record that it embeds. -/
  | orderingViolation (typeName dependency : String)
  | unsupportedPrimitive (name : String)
  | typeMismatch (expected found : String)
  | malformed (reason : Malformed)
  | wire (error : WireError)
  /-- A type expands beyond the bound on its nesting. -/
  | unbounded (name : String)
  deriving DecidableEq, Repr

namespace Error

def mismatch (expected : String) (found : Value) : Error := typeMismatch expected found.describe

def message : Error → String
  | notSerializable typeName obstacle =>
    "type '" ++ typeName ++ "' is not serializable: " ++ obstacle.message
  | dependencyCycle remaining =>
    "no progress in solving type dependencies: " ++ ", ".intercalate remaining
  | typeNotFound name => "type '" ++ name ++ "' not found"
  | memberMissing typeName member => "type '" ++ typeName ++ "' has no member '" ++ member ++ "'"
  | orderingViolation typeName dependency =>
    "types registered in wrong order: '" ++ typeName ++ "' needs '" ++ dependency ++
      "' compiled first"
  | unsupportedPrimitive name => "primitive '" ++ name ++ "' has no wire encoding"
  | typeMismatch expected found =>
    "type mismatch: expected " ++ expected ++ ", found " ++ found
  | malformed reason => "invalid data: " ++ reason.message
  | wire error => "wire error: " ++ error.message
  | unbounded name => "type '" ++ name ++ "' expands without end"

def source? : Error → Option WireError
  | wire error => some error
  | _ => none

end Error

def Value.toRecord (v : Value) : Except Error Record :=
  match v.record? with
  | some r => .ok r
  | none => .error (.mismatch "record" v)

end SchemaCodec
