/-! # Events

What an engine reports while it works, one line of text each.
-/

namespace SchemaCodec

inductive Event where
  | schemaMissing (typeName : String)
  | extracted (typeName : String) (count : Nat)
  | declared (typeName : String)
  | genericDeclared (base : String) (arity : Nat)
  | instantiated (typeName : String)
  | synthesized (typeName : String) (members : Nat)
  | compiling (typeName : String)
  | compiled (typeName : String) (members : Nat)
  | rootCompiled (typeName plan : String)
  deriving DecidableEq, Repr

def Event.line : Event → String
  | schemaMissing typeName => "[engine] schema cache miss for " ++ typeName
  | extracted typeName count =>
    "[schema] extracted " ++ typeName ++ " (" ++ toString count ++ " complex types)"
  | declared typeName => "[resolver] declared " ++ typeName
  | genericDeclared base arity => "[resolver] declared generic " ++ base ++ "/" ++ toString arity
  | instantiated typeName => "[resolver] instantiated " ++ typeName
  | synthesized typeName members =>
    "[resolver] synthesized " ++ typeName ++ " (" ++ toString members ++ " members)"
  | compiling typeName => "[engine] compiling " ++ typeName
  | compiled typeName members =>
    "[codegen] compiled " ++ typeName ++ " (" ++ toString members ++ " members)"
  | rootCompiled typeName plan => "[codegen] compiled root " ++ typeName ++ " as " ++ plan

end SchemaCodec
