import SchemaCodec.Text.Utf16

/-! # JSON

A JSON text as a tree. Numbers keep their spelling. Strings are kept as pieces, because an escape
may name half of a surrogate pair; such a string has no text of its own.
-/

namespace SchemaCodec

/-- A piece of a string: a character, or half of a pair given by an escape. -/
inductive Json.Piece where
  | char (c : Char)
  | surrogate (unit : Nat)
  deriving DecidableEq, Repr

inductive Json
  | null
  | bool (b : Bool)
  | number (spelling : List Char)
  | string (pieces : List Json.Piece)
  | array (items : List Json)
  | object (members : List (List Json.Piece × Json))

@[induction_eliminator]
theorem Json.induct {motive : Json → Prop}
    (null : motive .null) (bool : ∀ b, motive (.bool b))
    (number : ∀ spelling, motive (.number spelling)) (string : ∀ pieces, motive (.string pieces))
    (array : ∀ items, (∀ v ∈ items, motive v) → motive (.array items))
    (object : ∀ members, (∀ p ∈ members, motive p.2) → motive (.object members))
    (v : Json) : motive v :=
  Json.rec (motive_1 := motive) (motive_2 := fun items => ∀ v ∈ items, motive v)
    (motive_3 := fun members => ∀ p ∈ members, motive p.2) (motive_4 := fun p => motive p.2)
    null bool number string array object
    (List.forall_mem_nil _) (fun _ _ head tail => List.forall_mem_cons.mpr ⟨head, tail⟩)
    (List.forall_mem_nil _) (fun _ _ head tail => List.forall_mem_cons.mpr ⟨head, tail⟩)
    (fun _ _ h => h) v

namespace Json

def pieces (s : String) : List Piece := s.toList.map .char

def ofString (s : String) : Json := string (pieces s)

def ofInt (n : Int) : Json := number (toString n).toList

/-- The characters of pieces; halves of pairs must follow each other in order. -/
def characters? : List Piece → Option (List Char)
  | [] => some []
  | .char c :: rest => (c :: ·) <$> characters? rest
  | .surrogate high :: .surrogate low :: rest =>
    if Utf16.isHigh high && Utf16.isLow low then
      (Utf16.pair high low :: ·) <$> characters? rest
    else none
  | .surrogate _ :: _ => none

def text? (ps : List Piece) : Option String := String.ofList <$> characters? ps

theorem characters?_map_char (cs : List Char) : characters? (cs.map .char) = some cs := by
  induction cs with
  | nil => rfl
  | cons c cs ih => simp [characters?, ih]

/-- The integer of a number's spelling; a fraction, an exponent or a negative zero is none. -/
def int? (spelling : List Char) : Option Int :=
  let natural (cs : List Char) : Option Nat :=
    if cs ≠ [] ∧ cs.all fun c => '0' ≤ c && c ≤ '9' then
      some (cs.foldl (fun n c => n * 10 + (c.toNat - 48)) 0)
    else none
  match spelling with
  | '-' :: digits => ((natural digits).filter (· ≠ 0)).map fun n => -(n : Int)
  | digits => (natural digits).map fun n => (n : Int)

end Json

end SchemaCodec
