import SchemaCodec.Limits
import SchemaCodec.Scalar.Basic

/-! # Plans

How values of a type are coded. A record is coded member by member in the order of its plan;
everything that it embeds is part of the plan.
-/

namespace SchemaCodec

inductive Plan
  /-- The bytes of one scalar. -/
  | scalar (k : Scalar)
  /-- A byte count and UTF-8. -/
  | text
  /-- A count and a run of scalars in one piece. -/
  | bulk (k : Scalar)
  /-- A count and the elements one by one. -/
  | elements (element : Plan)
  /-- The members one after the other. -/
  | record (typeName : String) (fields : List (String × Plan))

@[induction_eliminator]
theorem Plan.induct {motive : Plan → Prop}
    (scalar : ∀ k, motive (.scalar k)) (text : motive .text) (bulk : ∀ k, motive (.bulk k))
    (elements : ∀ element, motive element → motive (.elements element))
    (record : ∀ typeName fields, (∀ p ∈ fields, motive p.2) → motive (.record typeName fields))
    (plan : Plan) : motive plan :=
  Plan.rec (motive_1 := motive) (motive_2 := fun fields => ∀ p ∈ fields, motive p.2)
    (motive_3 := fun p => motive p.2)
    scalar text bulk elements record
    (List.forall_mem_nil _) (fun _ _ head tail => List.forall_mem_cons.mpr ⟨head, tail⟩)
    (fun _ _ h => h) plan

namespace Plan

mutual

def same : Plan → Plan → Bool
  | scalar k, scalar l => k = l
  | text, text => true
  | bulk k, bulk l => k = l
  | elements p, elements q => same p q
  | record n fields, record m others => n = m && sameFields fields others
  | _, _ => false

def sameFields : List (String × Plan) → List (String × Plan) → Bool
  | [], [] => true
  | (n, p) :: fields, (m, q) :: others => n = m && same p q && sameFields fields others
  | _, _ => false

end

mutual

theorem same_iff (p q : Plan) : same p q = true ↔ p = q := by
  cases p <;> cases q <;> simp [same]
  case elements.elements p q => exact same_iff p q
  case record.record n fields m others => simp [sameFields_iff fields others]

theorem sameFields_iff (fields others : List (String × Plan)) :
    sameFields fields others = true ↔ fields = others := by
  rcases fields with - | ⟨⟨n, p⟩, fields⟩ <;> rcases others with - | ⟨⟨m, q⟩, others⟩ <;>
    simp [sameFields]
  simp [same_iff p q, sameFields_iff fields others]

end

instance : DecidableEq Plan := fun p q => decidable_of_iff _ (same_iff p q)

end Plan

def countSize : Nat := 4

def maxCount : Nat := 2147483647

def Plan.describe : Plan → String
  | scalar k => "Scalar(" ++ k.name ++ ")"
  | text => "Text"
  | bulk k => "Bulk(" ++ k.name ++ ")"
  | elements element => "Elements(" ++ element.describe ++ ")"
  | record typeName _ => "Record(" ++ typeName ++ ")"

structure Codec where
  typeName : String
  plan : Plan
  limits : Limits

end SchemaCodec
