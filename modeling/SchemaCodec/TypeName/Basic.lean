import SchemaCodec.TypeName.Split

/-! # Canonical type names

A name is a path, optionally followed by arguments in angle brackets, followed by one `[]` for
each level of sequence. Unbound parameters are written `$0`, `$1` and so on.
-/

namespace SchemaCodec.TypeName

def arraySuffix : String := "[]"

def array (element : String) : String := element ++ arraySuffix

def arrays (element : String) : Nat → String
  | 0 => element
  | depth + 1 => array (arrays element depth)

def parameter (index : Nat) : String := "$" ++ toString index

def hasParameters (name : String) : Bool := name.toList.contains '$'

def generic (base : String) (args : List String) : String :=
  base ++ "<" ++ ", ".intercalate args ++ ">"

def element? (name : String) : Option String :=
  match name.toList.reverse with
  | ']' :: '[' :: rest => some (String.ofList rest.reverse)
  | _ => none

def arrayCutter : Cutter := ⟨arraySuffix.toList, '<', '>'⟩

def argumentCutter : Cutter := ⟨[','], '<', '>'⟩

/-- A name's part before the first `[]` outside brackets, and the number of such marks. -/
def splitArrays (name : String) : String × Nat :=
  let (base, further) := arrayCutter.cut name.toList
  (String.ofList (trim base), further.length)

/-- The base and the arguments of a generic name; nothing where no argument is named. -/
def parseGeneric (name : String) : Option (String × List String) :=
  let cs := name.toList
  match cs.dropWhile (· ≠ '<') with
  | [] => none
  | _ :: inner =>
    match inner.reverse with
    | '>' :: rest =>
      match splitNonempty rest.reverse argumentCutter with
      | [] => none
      | args => some (String.ofList (trim (cs.takeWhile (· ≠ '<'))), args.map String.ofList)
    | _ => none

def afterLast? (mark : List Char) : List Char → Option (List Char)
  | [] => none
  | c :: rest =>
    match afterLast? mark rest with
    | some found => some found
    | none => if mark.isPrefixOf (c :: rest) then some ((c :: rest).drop mark.length) else none

def afterLast (mark cs : List Char) : List Char := (afterLast? mark cs).getD cs

def short (name : String) : String :=
  let (base, depth) := splitArrays name
  let path := base.toList.takeWhile (· ≠ '<')
  arrays (String.ofList (afterLast ['.'] (afterLast [':', ':'] path))) depth

/-- Replaces the occurrences of a pattern from left to right; `skip` characters of the last
occurrence are still to pass. -/
def replaceFrom (pattern replacement : List Char) : Nat → List Char → List Char
  | _, [] => []
  | skip + 1, _ :: rest => replaceFrom pattern replacement skip rest
  | 0, c :: rest =>
    if pattern.isPrefixOf (c :: rest) then
      replacement ++ replaceFrom pattern replacement (pattern.length - 1) rest
    else c :: replaceFrom pattern replacement 0 rest

def replaceParameter (index : Nat) (arg : String) (name : List Char) : List Char :=
  replaceFrom (parameter index).toList arg.toList 0 name

/-- Replaces the parameters below `args.length`, the highest first, so that `$1` is never taken
for the beginning of `$10`. -/
def substituteFrom (index : Nat) (args : List String) (name : List Char) : List Char :=
  match args with
  | [] => name
  | arg :: further => replaceParameter index arg (substituteFrom (index + 1) further name)

def substitute (name : String) (args : List String) : String :=
  String.ofList (substituteFrom 0 args name.toList)

example : splitArrays "p::Pair<Int32[], String>[]" = ("p::Pair<Int32[], String>", 1) := by decide

example : parseGeneric "p::Pair<Int32, p::Box<String>>" =
    some ("p::Pair", ["Int32", "p::Box<String>"]) := by decide

example : parseGeneric "p::Empty<>" = none := by decide

example : short "p::geo.Point<a::B>[]" = "Point[]" := by decide

example : substitute "P<$1, $10>" ["a", "b", "c", "d", "e", "f", "g", "h", "i", "j", "k"] =
    "P<b, k>" := by decide

end SchemaCodec.TypeName
