import SchemaCodec.Proofs.TypeName.Arguments

/-! # Spellings of types

A type is written as a tree over primitives, records and generic types. It has one canonical name and
many spellings: a primitive may be called by another of its names, and there may be blanks around
the whole, around arguments and in front of marks of sequences.
-/

namespace SchemaCodec.TypeName

inductive Tree
  | primitive (p : Primitive)
  | record (name : String)
  | generic (base : String) (args : List Tree)
  | array (element : Tree)

namespace Tree

mutual

def print : Tree → String
  | primitive p => p.name
  | record name => name
  | generic base args => TypeName.generic base (printAll args)
  | array element => TypeName.array (print element)

def printAll : List Tree → List String
  | [] => []
  | t :: ts => print t :: printAll ts

end

theorem printAll_eq_map (ts : List Tree) : printAll ts = ts.map print := by
  induction ts with
  | nil => rw [printAll, List.map_nil]
  | cons t ts ih => rw [printAll, List.map_cons, ih]

/-- The names of records are well formed, and neither they nor the bases of generic types have
arguments or a comma in them. -/
inductive Regular : Tree → Prop

  | primitive (p : Primitive) : Regular (.primitive p)

  | record {name : String} : WellFormed name → '<' ∉ name.toList → ',' ∉ name.toList →
      name.toList ≠ [] → Regular (.record name)

  | generic {base : String} {args : List Tree} : Simple base → (∀ t ∈ args, Regular t) →
      Regular (.generic base args)

  | array {element : Tree} : Regular element → Regular (.array element)

end Tree

/-- The text is a way to write the type. -/
inductive Spells : Tree → String → Prop

  | primitive {p : Primitive} {s : String} : Primitive.ofSpelling? s = some p →
      Spells (.primitive p) s

  | record (name : String) : Spells (.record name) name

  | generic {args : List Tree} {spellings : List String} (base : String) :
      args.length = spellings.length → (∀ t s, (t, s) ∈ args.zip spellings → Spells t s) →
      Spells (.generic base args) (applied base spellings)

  | array {t : Tree} {s : String} : Spells t s → Spells (.array t) (array s)

  | padded {t : Tree} {s : String} {front back : List Char} : Blank front → Blank back →
      Spells t s → Spells t (String.ofList (front ++ s.toList ++ back))

theorem spells_generic {args : List Tree} {spellings : List String} (base : String)
    (each : List.Forall₂ Spells args spellings) :
    Spells (.generic base args) (applied base spellings) :=
  .generic base each.length_eq fun _ _ => (List.forall₂_iff_zip.mp each).2

variable {t : Tree} {s : String}

theorem Spells.argument (h : Spells t s) (regular : t.Regular) : Argument s.toList := by
  induction h with
  | primitive spelled =>
    obtain ⟨simple, nonempty⟩ := simple_of_spelling spelled
    exact simple.argument nonempty
  | record name =>
    cases regular with
    | record wellFormed closed whole nonempty =>
      exact (simple_of_wellFormed wellFormed closed whole).argument nonempty
  | generic base length _ ih =>
    cases regular with
    | generic simple inner =>
      refine argument_applied simple fun s hs => ?_
      obtain ⟨t, ht, pair⟩ := partner_left (forall₂_zip length) hs
      exact (ih t s pair (inner t ht)).toBracketed
  | array _ ih =>
    cases regular with
    | array inner =>
      rw [toList_array]
      exact (ih inner).array
  | padded hf hb _ ih =>
    rw [String.toList_ofList]
    exact Argument.padded hf hb (ih regular)

end SchemaCodec.TypeName
