import SchemaCodec.Plan.Compile
import SchemaCodec.Proofs.Lists
import SchemaCodec.Proofs.Outcome

/-! # Chosen plans

The cases in which a plan is chosen for a type under a name. The type alone decides the plan; the
name only has to agree.
-/

namespace SchemaCodec.Plan

variable {compiled : String → Option Plan} {owner : String} {d : Descriptor} {typeName : String}
  {plan : Plan}

/-- The plan of a type under a name. -/
inductive Chosen (compiled : String → Option Plan) : Descriptor → String → Plan → Prop

  | scalar {k : Scalar} {typeName : String} : TypeName.element? typeName = none →
      Primitive.ofSpelling? typeName = some (.scalar k) →
      Chosen compiled (.primitive (.scalar k)) typeName (.scalar k)

  | text {typeName : String} : TypeName.element? typeName = none →
      Primitive.ofSpelling? typeName = some .string →
      Chosen compiled (.primitive .string) typeName .text

  | record {d : Descriptor} {typeName : String} {plan : Plan} :
      TypeName.element? typeName = none → Primitive.ofSpelling? typeName = none →
      d.isRecord = true → d.name = typeName → compiled typeName = some plan →
      Chosen compiled d typeName plan

  | bulk {k : Scalar} {typeName elementName : String} :
      TypeName.element? typeName = some elementName →
      Primitive.ofSpelling? elementName = some (.scalar k) →
      Chosen compiled (.sequence .array (.primitive (.scalar k))) typeName (.bulk k)

  | elements {container : Container} {element : Descriptor} {typeName elementName : String}
      {plan : Plan} : TypeName.element? typeName = some elementName →
      bulkKind? container element elementName = none → Chosen compiled element elementName plan →
      Chosen compiled (.sequence container element) typeName (.elements plan)

theorem bulkKind?_eq_some {container : Container} {element : Descriptor} {elementName : String}
    {k : Scalar} : bulkKind? container element elementName = some k ↔
      container = .array ∧ element = .primitive (.scalar k) ∧
        Primitive.ofSpelling? elementName = some (.scalar k) := by
  constructor
  · intro h
    unfold bulkKind? at h
    split at h
    · split at h
      · next spelled =>
        obtain rfl := Option.some.inj h
        exact ⟨rfl, rfl, spelled⟩
      · cases h
    · cases h
  · rintro ⟨rfl, rfl, spelled⟩
    exact if_pos spelled

theorem primitive?_eq_some {p : Primitive} : d.primitive? = some p ↔ d = .primitive p := by
  cases d <;> simp [Descriptor.primitive?]

theorem chooseBase_eq_ok : chooseBase compiled owner d typeName = .ok plan ↔
    (∃ k, Primitive.ofSpelling? typeName = some (.scalar k) ∧ d = .primitive (.scalar k) ∧
      plan = .scalar k) ∨
    (Primitive.ofSpelling? typeName = some .string ∧ d = .primitive .string ∧ plan = .text) ∨
    (Primitive.ofSpelling? typeName = none ∧ d.isRecord = true ∧ d.name = typeName ∧
      compiled typeName = some plan) := by
  unfold chooseBase
  constructor
  · intro h
    split at h
    · next p spelled =>
      split at h
      · next same =>
        obtain rfl := primitive?_eq_some.mp same
        rcases p with k | _ | _
        · exact .inl ⟨k, spelled, rfl, (Except.ok.inj h).symm⟩
        · exact .inr (.inl ⟨spelled, rfl, (Except.ok.inj h).symm⟩)
        · cases h
      · cases h
    · next spelled =>
      split at h
      · next agree =>
        split at h
        · next found => exact .inr (.inr ⟨spelled, agree.1, agree.2, Except.ok.inj h ▸ found⟩)
        · cases h
      · cases h
  · rintro (⟨k, spelled, rfl, rfl⟩ | ⟨spelled, rfl, rfl⟩ | ⟨spelled, isRecord, named, found⟩)
    · rw [spelled]
      exact if_pos rfl
    · rw [spelled]
      exact if_pos rfl
    · rw [spelled]
      exact (if_pos ⟨isRecord, named⟩).trans (by rw [found])

theorem choose_base_iff (leaf : ∀ container element, d ≠ .sequence container element) :
    choose compiled owner d typeName = .ok plan ↔
      TypeName.element? typeName = none ∧ chooseBase compiled owner d typeName = .ok plan := by
  cases d with
  | sequence container element => exact absurd rfl (leaf container element)
  | _ =>
    unfold choose
    split
    · next found => simp [found]
    · next missing => simp [missing]

theorem choose_leaf_iff (leaf : ∀ container element, d ≠ .sequence container element) :
    choose compiled owner d typeName = .ok plan ↔ Chosen compiled d typeName plan := by
  rw [choose_base_iff leaf, chooseBase_eq_ok]
  constructor
  · rintro ⟨plain, ⟨k, spelled, rfl, rfl⟩ | ⟨spelled, rfl, rfl⟩ | ⟨spelled, isRecord, named, found⟩⟩
    · exact .scalar plain spelled
    · exact .text plain spelled
    · exact .record plain spelled isRecord named found
  · intro h
    cases h with
    | scalar plain spelled => exact ⟨plain, .inl ⟨_, spelled, rfl, rfl⟩⟩
    | text plain spelled => exact ⟨plain, .inr (.inl ⟨spelled, rfl, rfl⟩)⟩
    | record plain spelled isRecord named found =>
      exact ⟨plain, .inr (.inr ⟨spelled, isRecord, named, found⟩)⟩
    | bulk => exact absurd rfl (leaf _ _)
    | elements => exact absurd rfl (leaf _ _)

theorem choose_iff : choose compiled owner d typeName = .ok plan ↔
    Chosen compiled d typeName plan := by
  induction d generalizing typeName plan with
  | sequence container element ih =>
    rw [choose]
    constructor
    · intro h
      split at h
      · next elementName found =>
        split at h
        · next k kind =>
          obtain ⟨rfl, rfl, spelled⟩ := bulkKind?_eq_some.mp kind
          obtain rfl := Except.ok.inj h
          exact .bulk found spelled
        · next kind =>
          obtain ⟨p, chosen, rfl⟩ := map_eq_ok.mp h
          exact .elements found kind (ih.mp chosen)
      · rcases chooseBase_eq_ok.mp h with ⟨k, -, no, -⟩ | ⟨-, no, -⟩ | ⟨-, no, -⟩
        · cases no
        · cases no
        · cases no
    · intro h
      cases h with
      | record _ _ no _ _ => cases no
      | bulk found spelled =>
        rw [found]
        dsimp only
        rw [bulkKind?_eq_some.mpr ⟨rfl, rfl, spelled⟩]
      | elements found kind chosen =>
        rw [found]
        dsimp only
        rw [kind]
        exact map_eq_ok.mpr ⟨_, ih.mpr chosen, rfl⟩
  | _ => exact choose_leaf_iff fun _ _ h => nomatch h

theorem Chosen.of_isRecord (h : Chosen compiled d typeName plan) (isRecord : d.isRecord = true) :
    compiled typeName = some plan := by
  cases h with
  | record _ _ _ _ found => exact found
  | _ => cases isRecord

/-- One type has one plan, under whatever names it is chosen for. -/
theorem Chosen.unique {other : Plan} {otherName : String} (h : Chosen compiled d typeName plan)
    (h' : Chosen compiled d otherName other) : plan = other := by
  induction h generalizing otherName other with
  | scalar plain spelled =>
    cases h' with
    | scalar => rfl
    | record _ _ no _ _ => cases no
  | text plain spelled =>
    cases h' with
    | text => rfl
    | record _ _ no _ _ => cases no
  | record plain spelled isRecord named found =>
    cases h' with
    | record _ _ _ named' found' =>
      rw [named.symm.trans named', found'] at found
      exact (Option.some.inj found).symm
    | scalar => cases isRecord
    | text => cases isRecord
    | bulk => cases isRecord
    | elements => cases isRecord
  | bulk found spelled =>
    cases h' with
    | bulk => rfl
    | record _ _ no _ _ => cases no
    | elements _ kind chosen =>
      cases chosen with
      | scalar _ spelled' => cases kind.symm.trans (bulkKind?_eq_some.mpr ⟨rfl, rfl, spelled'⟩)
      | record _ _ no _ _ => cases no
  | elements found kind chosen ih =>
    cases h' with
    | elements _ _ chosen' => exact congrArg Plan.elements (ih chosen')
    | record _ _ no _ _ => cases no
    | bulk _ spelled' =>
      cases chosen with
      | scalar _ spelled => cases kind.symm.trans (bulkKind?_eq_some.mpr ⟨rfl, rfl, spelled⟩)
      | record _ _ no _ _ => cases no

/-- The plan of a child, which belongs to the member of its name. -/
def ChosenChild (compiled : String → Option Plan) (members : List (String × Descriptor))
    (child : Node) (field : String × Plan) : Prop :=
  ∃ d, child.name = some field.1 ∧ members.lookup field.1 = some d ∧
    Chosen compiled d child.typeName field.2

theorem chooseFields_iff {members : List (String × Descriptor)} {children : List Node}
    {fields : List (String × Plan)} :
    chooseFields compiled owner members children = .ok fields ↔
      List.Forall₂ (ChosenChild compiled members) children fields := by
  induction children generalizing fields with
  | nil =>
    rw [chooseFields]
    constructor
    · rintro ⟨⟩
      exact .nil
    · rintro ⟨⟩
      rfl
  | cons child others ih =>
    rw [chooseFields]
    constructor
    · intro h
      split at h
      · cases h
      · next name named =>
        split at h
        · cases h
        · next d found =>
          obtain ⟨plan, chosen, h⟩ := bind_eq_ok.mp h
          obtain ⟨plans, rest, h⟩ := bind_eq_ok.mp h
          obtain rfl := return_eq_ok.mp h
          exact .cons ⟨d, named, found, choose_iff.mp chosen⟩ (ih.mp rest)
    · intro h
      cases h with
      | cons head rest =>
        obtain ⟨d, named, found, chosen⟩ := head
        rw [named]
        dsimp only
        rw [found]
        exact bind_eq_ok.mpr ⟨_, choose_iff.mpr chosen, bind_eq_ok.mpr ⟨_, ih.mpr rest, rfl⟩⟩

theorem chooseFields_of_first {members : List (String × Descriptor)} {front back : List Node}
    {child : Node} {name : String} {error : Error}
    (all : ∀ c ∈ front, ∃ field, ChosenChild compiled members c field)
    (named : child.name = some name) (found : members.lookup name = some d)
    (failed : choose compiled owner d child.typeName = .error error) :
    chooseFields compiled owner members (front ++ child :: back) = .error error := by
  induction front with
  | nil =>
    rw [List.nil_append, chooseFields, named]
    simp only [found, failed, bind, Except.bind]
  | cons c front ih =>
    obtain ⟨⟨⟨name', plan⟩, d', named', found', chosen⟩, all⟩ := List.forall_mem_cons.mp all
    rw [List.cons_append, chooseFields, named']
    simp only [found', choose_iff.mpr chosen, ih all, bind, Except.bind]

theorem ofNode_iff {C : Catalog} {node : Node} : ofNode compiled C node d = .ok plan ↔
    ∃ members fields, d.members? C = some members ∧ plan = .record node.typeName fields ∧
      List.Forall₂ (ChosenChild compiled members) node.children fields := by
  unfold ofNode
  constructor
  · intro h
    split at h
    · cases h
    · next members found =>
      obtain ⟨fields, chosen, rfl⟩ := map_eq_ok.mp h
      exact ⟨members, fields, found, rfl, chooseFields_iff.mp chosen⟩
  · rintro ⟨members, fields, found, rfl, chosen⟩
    rw [found]
    exact map_eq_ok.mpr ⟨fields, chooseFields_iff.mpr chosen, rfl⟩

theorem ChosenChild.unique {members : List (String × Descriptor)} {children others : List Node}
    {fields fields' : List (String × Plan)}
    (h : List.Forall₂ (ChosenChild compiled members) children fields)
    (h' : List.Forall₂ (ChosenChild compiled members) others fields')
    (names : children.map Node.name = others.map Node.name) : fields = fields' := by
  induction h generalizing others fields' with
  | nil =>
    obtain rfl := List.map_eq_nil_iff.mp names.symm
    cases h'
    rfl
  | @cons child field children fields head _ ih =>
    cases h' with
    | nil => cases names
    | @cons other field' _ _ head' tail' =>
      obtain ⟨same, rest⟩ := List.cons.inj names
      obtain ⟨d, named, found, chosen⟩ := head
      obtain ⟨d', named', found', chosen'⟩ := head'
      have label : field.1 = field'.1 :=
        Option.some.inj (named.symm.trans (same.trans named'))
      obtain rfl : d = d' := Option.some.inj (found.symm.trans (label ▸ found'))
      rw [Prod.ext label (chosen.unique chosen'), ih tail' rest]

/-! ## More compiled records -/

def Included (compiled later : String → Option Plan) : Prop :=
  ∀ name plan, compiled name = some plan → later name = some plan

section Included

variable {later : String → Option Plan}

theorem Chosen.mono_at (h : Chosen compiled d typeName plan)
    (more : ∀ p, d.innermost.isRecord = true → compiled d.innermost.name = some p →
      later d.innermost.name = some p) : Chosen later d typeName plan := by
  induction h with
  | scalar plain spelled => exact .scalar plain spelled
  | text plain spelled => exact .text plain spelled
  | @record d typeName plan plain spelled isRecord named found =>
    have inner : d.innermost = d := by
      cases d with
      | sequence => cases isRecord
      | _ => rfl
    subst named
    rw [inner] at more
    exact .record plain spelled isRecord rfl (more plan isRecord found)
  | bulk found spelled => exact .bulk found spelled
  | elements found kind _ ih => exact .elements found kind (ih more)

theorem Chosen.mono (h : Chosen compiled d typeName plan) (more : Included compiled later) :
    Chosen later d typeName plan :=
  h.mono_at fun p _ => more _ p

theorem ChosenChild.mono {members : List (String × Descriptor)} {child : Node}
    {field : String × Plan} (h : ChosenChild compiled members child field)
    (more : Included compiled later) : ChosenChild later members child field := by
  obtain ⟨d, named, found, chosen⟩ := h
  exact ⟨d, named, found, chosen.mono more⟩

theorem ofNode_mono {C : Catalog} {node : Node} (more : Included compiled later)
    (h : ofNode compiled C node d = .ok plan) : ofNode later C node d = .ok plan := by
  obtain ⟨members, fields, known, rfl, all⟩ := ofNode_iff.mp h
  exact ofNode_iff.mpr ⟨members, fields, known, rfl, all.imp fun _ _ child => child.mono more⟩

end Included

/-! ## Coherence -/

/-- Members of one name have one plan, in every record. -/
inductive Coherent : Plan → Prop

  | scalar (k : Scalar) : Coherent (.scalar k)

  | text : Coherent .text

  | bulk (k : Scalar) : Coherent (.bulk k)

  | elements {element : Plan} : Coherent element → Coherent (.elements element)

  | record {typeName : String} {fields : List (String × Plan)} :
      (∀ p ∈ fields, Coherent p.2) → (∀ p ∈ fields, ∀ q ∈ fields, p.1 = q.1 → p.2 = q.2) →
      Coherent (.record typeName fields)

theorem Chosen.coherent (h : Chosen compiled d typeName plan)
    (linked : ∀ name p, compiled name = some p → Coherent p) : Coherent plan := by
  induction h with
  | scalar => exact .scalar _
  | text => exact .text
  | record _ _ _ _ found => exact linked _ _ found
  | bulk => exact .bulk _
  | elements _ _ _ ih => exact .elements ih

/-- The plan of a record is coherent, also where its node repeats the name of a child. -/
theorem coherent_ofNode {C : Catalog} {node : Node}
    (linked : ∀ name p, compiled name = some p → Coherent p)
    (h : ofNode compiled C node d = .ok plan) : Coherent plan := by
  obtain ⟨members, fields, -, rfl, all⟩ := ofNode_iff.mp h
  constructor
  · intro p hp
    obtain ⟨child, -, d, -, -, chosen⟩ := partner_left all hp
    exact chosen.coherent linked
  · rintro ⟨name, plan⟩ hp ⟨_, other⟩ hq ⟨⟩
    obtain ⟨child, -, d, -, found, chosen⟩ := partner_left all hp
    obtain ⟨child', -, d', -, found', chosen'⟩ := partner_left all hq
    obtain rfl : d = d' := Option.some.inj (found.symm.trans found')
    exact chosen.unique chosen'

end SchemaCodec.Plan
