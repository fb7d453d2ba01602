import SchemaCodec.Primitive
import SchemaCodec.TypeName.Basic

/-! # Types of a program

The types whose values a program sends: primitives, sequences in three kinds of storage, and
records, which may take type arguments. A record is known by its identity; what it consists of is
declared elsewhere, so types may refer to each other freely.
-/

namespace SchemaCodec

/-- How a program stores a sequence. -/
inductive Storage
  | vector | slice | deque
  deriving DecidableEq, Repr

/-- Which collection a sequence type came from: contiguous arrays of scalars are coded in bulk. -/
inductive Container
  | array | list
  deriving DecidableEq, Repr

def Storage.container : Storage → Container
  | vector | slice => .array
  | deque => .list

/-- The identity of a declared record: its canonical name without arguments, its unqualified name,
and a number that tells apart declarations of one name. -/
structure RecordId where
  base : String
  short : String
  serial : Nat
  deriving DecidableEq, Repr

/-- A type of a program; inside the declaration of a generic record, parameter `i` stands for the
`i`-th type argument. -/
inductive MessageType
  | primitive (p : Primitive)
  | parameter (index : Nat)
  | sequence (storage : Storage) (element : MessageType)
  | record (id : RecordId) (args : List MessageType)

@[induction_eliminator]
theorem MessageType.induct {motive : MessageType → Prop}
    (primitive : ∀ p, motive (.primitive p)) (parameter : ∀ i, motive (.parameter i))
    (sequence : ∀ storage element, motive element → motive (.sequence storage element))
    (record : ∀ id args, (∀ t ∈ args, motive t) → motive (.record id args))
    (t : MessageType) : motive t :=
  MessageType.rec (motive_1 := motive) (motive_2 := fun args => ∀ t ∈ args, motive t)
    primitive parameter sequence record
    (List.forall_mem_nil _) (fun _ _ head tail => List.forall_mem_cons.mpr ⟨head, tail⟩) t

namespace MessageType

abbrev scalar (k : Scalar) : MessageType := primitive (.scalar k)

abbrev string : MessageType := primitive .string

def recordName (base : String) : List String → String
  | [] => base
  | args => TypeName.generic base args

mutual

def name : MessageType → String
  | primitive p => p.name
  | parameter i => TypeName.parameter i
  | sequence _ element => TypeName.array element.name
  | record id args => recordName id.base (names args)

def names : List MessageType → List String
  | [] => []
  | t :: ts => t.name :: names ts

end

mutual

/-- A type with arguments in the places of its parameters; a parameter without argument stays. -/
def subst (args : List MessageType) : MessageType → MessageType
  | primitive p => primitive p
  | parameter i => args[i]?.getD (parameter i)
  | sequence storage element => sequence storage (subst args element)
  | record id ts => record id (substAll args ts)

def substAll (args : List MessageType) : List MessageType → List MessageType
  | [] => []
  | t :: ts => subst args t :: substAll args ts

end

mutual

def same : MessageType → MessageType → Bool
  | primitive p, primitive q => p = q
  | parameter i, parameter j => i = j
  | sequence s t, sequence s' t' => s = s' && same t t'
  | record id ts, record id' ts' => id = id' && sameAll ts ts'
  | _, _ => false

def sameAll : List MessageType → List MessageType → Bool
  | [], [] => true
  | t :: ts, t' :: ts' => same t t' && sameAll ts ts'
  | _, _ => false

end

mutual

theorem same_iff (a b : MessageType) : same a b = true ↔ a = b := by
  cases a <;> cases b <;> simp [same]
  case sequence.sequence s t s' t' => simp [same_iff t t']
  case record.record id ts id' ts' => simp [sameAll_iff ts ts']

theorem sameAll_iff (as bs : List MessageType) : sameAll as bs = true ↔ as = bs := by
  cases as <;> cases bs <;> simp [sameAll]
  case cons.cons a as b bs => simp [same_iff a b, sameAll_iff as bs]

end

instance : DecidableEq MessageType := fun a b => decidable_of_iff _ (same_iff a b)

theorem names_eq_map (ts : List MessageType) : names ts = ts.map name := by
  induction ts with
  | nil => rfl
  | cons t ts ih => simp [names, ih]

theorem substAll_eq_map (args ts : List MessageType) : substAll args ts = ts.map (subst args) := by
  induction ts with
  | nil => rfl
  | cons t ts ih => simp [substAll, ih]

end MessageType

example : (MessageType.record ⟨"p::Pair", "Pair", 0⟩
    [.scalar .int32, .sequence .deque (.parameter 1)]).name = "p::Pair<Int32, $1[]>" := by decide

end SchemaCodec
