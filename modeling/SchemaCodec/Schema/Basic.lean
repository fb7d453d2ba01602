/-! # Schemas

A schema names a root type and lists the complex types that it needs, each as a node whose
children are its members. A child is a reference; only in schemas written by hand does it bring
children of its own.
-/

namespace SchemaCodec

/-- A type of a schema, or, with a name, a member of one. -/
inductive Node
  | mk (name : Option String) (typeName : String) (children : List Node)

@[induction_eliminator]
theorem Node.induct {motive : Node → Prop}
    (mk : ∀ name typeName children, (∀ c ∈ children, motive c) →
      motive (.mk name typeName children))
    (node : Node) : motive node :=
  Node.rec (motive_1 := motive) (motive_2 := fun children => ∀ c ∈ children, motive c)
    mk (List.forall_mem_nil _)
    (fun _ _ head tail => List.forall_mem_cons.mpr ⟨head, tail⟩) node

namespace Node

def name : Node → Option String
  | mk name _ _ => name

def typeName : Node → String
  | mk _ typeName _ => typeName

def children : Node → List Node
  | mk _ _ children => children

def type (typeName : String) : Node := mk none typeName []

def member (name typeName : String) : Node := mk (some name) typeName []

def child? (node : Node) (name : String) : Option Node := node.children.find? (·.name = some name)

mutual

def same : Node → Node → Bool
  | mk n t cs, mk n' t' cs' => n = n' && t = t' && sameAll cs cs'

def sameAll : List Node → List Node → Bool
  | [], [] => true
  | c :: cs, c' :: cs' => same c c' && sameAll cs cs'
  | _, _ => false

end

mutual

theorem same_iff (a b : Node) : same a b = true ↔ a = b := by
  obtain ⟨n, t, cs⟩ := a
  obtain ⟨n', t', cs'⟩ := b
  simp [same, sameAll_iff cs cs', and_assoc]

theorem sameAll_iff (as bs : List Node) : sameAll as bs = true ↔ as = bs := by
  cases as <;> cases bs <;> simp [sameAll]
  case cons.cons a as b bs => simp [same_iff a b, sameAll_iff as bs]

end

instance : DecidableEq Node := fun a b => decidable_of_iff _ (same_iff a b)

end Node

/-- A root type with the complex types that it needs, each after the ones it embeds. -/
structure Schema where
  typeName : String
  fingerprint : Int64
  types : List Node
  deriving DecidableEq

namespace Schema

def node? (s : Schema) (typeName : String) : Option Node := s.types.find? (·.typeName = typeName)

def root? (s : Schema) : Option Node := s.node? s.typeName

end Schema

end SchemaCodec
