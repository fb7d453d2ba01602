import SchemaCodec.Plan.Codec
import SchemaCodec.Proofs.Outcome

/-! # Drafts

Plans whose form keeps no primitive out of the place of a scalar. Texts and decimals have no fixed
width, so whatever is done with a draft has to refuse them there. No draft is chosen that has them
there: where only plans were compiled before, choosing a draft comes to choosing a plan, and a plan
does as a draft what it does anyway.
-/

namespace SchemaCodec

/-- How a value is to be coded. -/
inductive Draft
  | scalar (p : Primitive)
  | text
  | bulk (p : Primitive)
  | elements (element : Draft)
  | record (typeName : String) (fields : List (String × Draft))

namespace Draft

/-- The primitive is to be coded as a scalar, or in a run of scalars, at some depth. -/
inductive Codes (p : Primitive) : Draft → Prop

  | scalar : Codes p (.scalar p)

  | bulk : Codes p (.bulk p)

  | elements {element : Draft} : Codes p element → Codes p (.elements element)

  | member {typeName : String} {fields : List (String × Draft)} {field : String × Draft} :
      field ∈ fields → Codes p field.2 → Codes p (.record typeName fields)

/-! ## Choosing -/

def ofPrimitive (typeName : String) : Primitive → Except Error Draft
  | .string => .ok text
  | .decimal => .error (.unsupportedPrimitive typeName)
  | p => .ok (scalar p)

/-- The primitive whose arrays are coded in one piece: it has a width, and both sides name it. -/
def bulk? (container : Container) (element : Descriptor) (elementName : String) :
    Option Primitive :=
  if container = .array then
    element.primitive?.filter fun p =>
      p.width?.isSome && decide (Primitive.ofSpelling? elementName = some p)
  else none

section Choosing

variable (compiled : String → Option Draft) (owner : String)

def chooseBase (d : Descriptor) (typeName : String) : Except Error Draft :=
  match Primitive.ofSpelling? typeName with
  | some p =>
    if d.primitive? = some p then ofPrimitive typeName p
    else .error (Plan.disagreement typeName d)
  | none =>
    if d.isRecord ∧ d.name = typeName then
      match compiled typeName with
      | some draft => .ok draft
      | none => .error (.orderingViolation owner typeName)
    else .error (Plan.disagreement typeName d)

def choose : Descriptor → String → Except Error Draft
  | .sequence container element, typeName =>
    match TypeName.element? typeName with
    | some elementName =>
      match bulk? container element elementName with
      | some p => .ok (bulk p)
      | none => elements <$> choose element elementName
    | none => chooseBase compiled owner (.sequence container element) typeName
  | d, typeName =>
    match TypeName.element? typeName with
    | some _ => .error (Plan.disagreement typeName d)
    | none => chooseBase compiled owner d typeName

def chooseFields (members : List (String × Descriptor)) :
    List Node → Except Error (List (String × Draft))
  | [] => .ok []
  | child :: others =>
    match child.name with
    | none => .error (.malformed (.unnamedChild owner))
    | some name =>
      match members.lookup name with
      | none => .error (.memberMissing owner name)
      | some d => do
        let draft ← choose compiled owner d child.typeName
        let drafts ← chooseFields members others
        return (name, draft) :: drafts

def ofNode (C : Catalog) (node : Node) (d : Descriptor) : Except Error Draft :=
  match d.members? C with
  | none => .error (.typeMismatch (Value.recordOf node.typeName) d.name)
  | some members =>
    record node.typeName <$> chooseFields compiled node.typeName members node.children

/-- No draft is chosen for a decimal, under whatever name and however many levels of sequences. -/
theorem choose_decimal {d : Descriptor} (decimal : d.innermost = .primitive .decimal)
    (typeName : String) (draft : Draft) : choose compiled owner d typeName ≠ .ok draft := by
  induction d generalizing typeName draft with
  | primitive p =>
    obtain rfl := Descriptor.primitive.inj decimal
    unfold choose
    split
    · simp
    · unfold chooseBase
      split
      · split
        · next p _ same =>
          obtain rfl : Primitive.decimal = p := Option.some.inj same
          simp [ofPrimitive]
        · simp
      · simp [Descriptor.isRecord]
  | sequence container element ih =>
    have single : bulk? container element = fun _ => none := by
      funext elementName
      unfold bulk?
      split
      · cases element with
        | primitive p =>
          obtain rfl := Descriptor.primitive.inj decimal
          rfl
        | _ => rfl
      · rfl
    unfold choose
    split
    · rw [single]
      intro chosen
      obtain ⟨element, chosen, -⟩ := map_eq_ok.mp chosen
      exact ih decimal _ element chosen
    · unfold chooseBase
      split <;> simp [Descriptor.primitive?, Descriptor.isRecord]
  | parameter | declared | built => cases decimal

end Choosing

/-! ## Coding -/

def emitScalar : Primitive → Value → Emission
  | .scalar k, v => Plan.emitScalar k v
  | p, _ => .fail (.unsupportedPrimitive p.name)

def emitBulk (p : Primitive) : Value → Emission
  | .array l xs =>
    if .scalar l = p then Plan.emitCount xs.length ++ .piece (l.runBytes xs)
    else .fail (.mismatch (p.name ++ " array") (.array l xs))
  | .list items => Plan.emitCount items.length ++ .each (emitScalar p) items
  | v => .fail (.mismatch (p.name ++ " array") v)

mutual

def emit : Draft → Value → Emission
  | scalar p, v => emitScalar p v
  | text, v => Plan.emitText v
  | bulk p, v => emitBulk p v
  | elements element, v =>
    match v.elements? with
    | some items => Plan.emitCount items.length ++ .each (emit element) items
    | none => .fail (.mismatch "sequence" v)
  | record typeName fields, v =>
    match v with
    | .record _ values => emitFields typeName fields values
    | v => .fail (.mismatch (Value.recordOf typeName) v)

def emitFields (typeName : String) : List (String × Draft) → List (String × Value) → Emission
  | [], _ => .empty
  | (name, draft) :: rest, values =>
    match Fields.get? name values with
    | some v => emit draft v ++ emitFields typeName rest values
    | none => .fail (.memberMissing typeName name)

end

def encode (draft : Draft) (v : Value) : EStateM Error Sink Unit := (draft.emit v).writeTo

def scalarSize (p : Primitive) : Except Error Nat :=
  match p.width? with
  | some width => .ok width
  | none => .error (.unsupportedPrimitive p.name)

/-- The size of a sequence of scalars; its length is looked at first. -/
def runSize (p : Primitive) (expected : String) (v : Value) : Except Error Nat :=
  match v.length? with
  | some count => (countSize + count * ·) <$> scalarSize p
  | none => .error (.mismatch expected v)

mutual

def exactSize : Draft → Value → Except Error Nat
  | scalar p, _ => scalarSize p
  | text, .text s => .ok (countSize + (Utf8.encode s).length)
  | text, v => .error (.mismatch (Primitive.name .string) v)
  | bulk p, v => runSize p (p.name ++ " array") v
  | elements (scalar p), v => runSize p "sequence" v
  | elements element, v =>
    match v.elements? with
    | some items => (countSize + ·) <$> Plan.sumSizes (exactSize element) items
    | none => .error (.mismatch "sequence" v)
  | record typeName fields, .record _ values => fieldSizes typeName fields values
  | record typeName _, v => .error (.mismatch (Value.recordOf typeName) v)

def fieldSizes (typeName : String) :
    List (String × Draft) → List (String × Value) → Except Error Nat
  | [], _ => .ok 0
  | (name, draft) :: rest, values =>
    match Fields.get? name values with
    | some v => do
      let n ← exactSize draft v
      let total ← fieldSizes typeName rest values
      return n + total
    | none => .error (.memberMissing typeName name)

end

def readScalar : Primitive → Decoder Value
  | .scalar k => do
    let x ← Decoder.ofReader (Reader.scalar k)
    return .scalar k x
  | p => throw (.unsupportedPrimitive p.name)

def readArray (count : Nat) : Primitive → Decoder Value
  | .scalar k => do
    let xs ← Decoder.ofReader (Reader.array k count)
    return .array k xs
  | p => throw (.unsupportedPrimitive p.name)

section Decoding

variable (limits : Limits)

mutual

def decode : Draft → Decoder Value
  | scalar p => readScalar p
  | text => do
    let s ← Decoder.text limits.maxText
    return .text s
  | bulk p => do
    let count ← Decoder.count .sequence limits.maxSequence
    readArray count p
  | elements element => do
    let count ← Decoder.count .sequence limits.maxSequence
    let items ← Decoder.times (decode element) count
    return .list items
  | record typeName fields => do
    let values ← decodeFields fields
    return .record typeName (Fields.ofList values)

def decodeFields : List (String × Draft) → Decoder (List (String × Value))
  | [] => return []
  | (name, draft) :: rest => do
    let v ← decode draft
    let vs ← decodeFields rest
    return (name, v) :: vs

end

end Decoding

end Draft

/-! ## Plans as drafts -/

namespace Plan

mutual

def draft : Plan → Draft
  | scalar k => .scalar (.scalar k)
  | text => .text
  | bulk k => .bulk (.scalar k)
  | elements element => .elements (draft element)
  | record typeName fields => .record typeName (draftFields fields)

def draftFields : List (String × Plan) → List (String × Draft)
  | [] => []
  | (name, plan) :: rest => (name, draft plan) :: draftFields rest

end

theorem exists_field_of_draftFields {fields : List (String × Plan)} {field : String × Draft}
    (h : field ∈ draftFields fields) : ∃ p ∈ fields, field.2 = p.2.draft := by
  induction fields with
  | nil => simp [draftFields] at h
  | cons p rest ih =>
    obtain ⟨name, plan⟩ := p
    rw [draftFields] at h
    rcases List.mem_cons.mp h with rfl | h
    · exact ⟨_, List.mem_cons_self, rfl⟩
    · obtain ⟨p, hp, same⟩ := ih h
      exact ⟨p, List.mem_cons_of_mem _ hp, same⟩

theorem codes_draft {plan : Plan} {p : Primitive} (h : plan.draft.Codes p) :
    ∃ k, p = .scalar k := by
  induction plan with
  | scalar k =>
    rw [draft] at h
    cases h
    exact ⟨k, rfl⟩
  | text =>
    rw [draft] at h
    cases h
  | bulk k =>
    rw [draft] at h
    cases h
    exact ⟨k, rfl⟩
  | elements element ih =>
    rw [draft] at h
    cases h with
    | elements inner => exact ih inner
  | record typeName fields ih =>
    rw [draft] at h
    cases h with
    | member mem inner =>
      obtain ⟨q, hq, same⟩ := exists_field_of_draftFields mem
      rw [same] at inner
      exact ih q hq inner

section Emitting

theorem emitBulk_draft (k : Scalar) (v : Value) :
    Draft.emitBulk (.scalar k) v = emitBulk k v := by
  cases v with
  | array l xs => simp [Draft.emitBulk, emitBulk, Value.arrayOf, Primitive.name]
  | list items => rfl
  | _ => rfl

theorem emitFields_draft {fields : List (String × Plan)}
    (h : ∀ p ∈ fields, ∀ v, p.2.draft.emit v = p.2.emit v) (typeName : String)
    (values : List (String × Value)) :
    Draft.emitFields typeName (draftFields fields) values = emitFields typeName fields values := by
  induction fields with
  | nil => rw [draftFields, Draft.emitFields, emitFields]
  | cons field rest ih =>
    obtain ⟨name, plan⟩ := field
    obtain ⟨head, tail⟩ := List.forall_mem_cons.mp h
    rw [draftFields, Draft.emitFields, emitFields, ih tail]
    cases Fields.get? name values with
    | some v => simp only [head]
    | none => rfl

theorem emit_draft (plan : Plan) (v : Value) : plan.draft.emit v = plan.emit v := by
  induction plan generalizing v with
  | scalar k => rw [draft, Draft.emit, emit, Draft.emitScalar]
  | text => rw [draft, Draft.emit, emit]
  | bulk k => rw [draft, Draft.emit, emit, emitBulk_draft]
  | elements element ih =>
    have same : element.draft.emit = element.emit := funext ih
    rw [draft, Draft.emit, emit]
    cases v.elements? with
    | some items => simp only [same]
    | none => rfl
  | record typeName fields ih =>
    rw [draft, Draft.emit.eq_def, emit.eq_def]
    cases v with
    | record _ values => exact emitFields_draft ih typeName values
    | _ => rfl

theorem encode_draft (plan : Plan) (v : Value) : plan.draft.encode v = plan.encode v := by
  rw [Draft.encode, encode, emit_draft]

end Emitting

section Measuring

theorem runSize_draft (k : Scalar) (expected : String) (v : Value) :
    Draft.runSize (.scalar k) expected v = runSize k expected v := by
  unfold Draft.runSize runSize
  cases v.length? <;> rfl

theorem fieldSizes_draft {fields : List (String × Plan)}
    (h : ∀ p ∈ fields, ∀ v, p.2.draft.exactSize v = p.2.exactSize v) (typeName : String)
    (values : List (String × Value)) :
    Draft.fieldSizes typeName (draftFields fields) values = fieldSizes typeName fields values := by
  induction fields with
  | nil => rw [draftFields, Draft.fieldSizes, fieldSizes]
  | cons field rest ih =>
    obtain ⟨name, plan⟩ := field
    obtain ⟨head, tail⟩ := List.forall_mem_cons.mp h
    rw [draftFields, Draft.fieldSizes, fieldSizes, ih tail]
    cases Fields.get? name values with
    | some v => simp only [head]
    | none => rfl

theorem exactSize_draft (plan : Plan) (v : Value) : plan.draft.exactSize v = plan.exactSize v := by
  induction plan generalizing v with
  | scalar k => rw [draft, Draft.exactSize, exactSize]; rfl
  | text => cases v <;> simp only [draft, Draft.exactSize, exactSize]
  | bulk k => rw [draft, Draft.exactSize, exactSize, runSize_draft]; rfl
  | elements element ih =>
    have same : element.draft.exactSize = element.exactSize := funext ih
    cases element with
    | scalar k => rw [draft, draft, Draft.exactSize, exactSize, runSize_draft]
    | _ =>
      simp only [draft, Draft.exactSize, exactSize] at same ⊢
      cases v.elements? with
      | some items => simp only [same]
      | none => rfl
  | record typeName fields ih =>
    cases v with
    | record _ values =>
      rw [draft, Draft.exactSize, exactSize, fieldSizes_draft ih]
    | _ => simp only [draft, Draft.exactSize, exactSize]

end Measuring

section Reading

variable {limits : Limits}

theorem decodeFields_draft {fields : List (String × Plan)}
    (h : ∀ p ∈ fields, p.2.draft.decode limits = p.2.decode limits) :
    Draft.decodeFields limits (draftFields fields) = decodeFields limits fields := by
  induction fields with
  | nil => rw [draftFields, Draft.decodeFields, decodeFields]
  | cons field rest ih =>
    obtain ⟨name, plan⟩ := field
    obtain ⟨head, tail⟩ := List.forall_mem_cons.mp h
    rw [draftFields, Draft.decodeFields, decodeFields, ih tail]
    simp only [head]

theorem decode_draft (plan : Plan) : plan.draft.decode limits = plan.decode limits := by
  induction plan with
  | scalar k => rw [draft, Draft.decode, decode, Draft.readScalar]
  | text => rw [draft, Draft.decode, decode]
  | bulk k => rw [draft, Draft.decode, decode]; rfl
  | elements element ih => rw [draft, Draft.decode, decode, ih]
  | record typeName fields ih => rw [draft, Draft.decode, decode, decodeFields_draft ih]

end Reading

section Choosing

variable (compiled : String → Option Plan) (owner : String)

def drafts (name : String) : Option Draft := (compiled name).map draft

theorem chooseBase_drafts (d : Descriptor) (typeName : String) :
    Draft.chooseBase (drafts compiled) owner d typeName =
      draft <$> chooseBase compiled owner d typeName := by
  unfold Draft.chooseBase chooseBase drafts
  cases Primitive.ofSpelling? typeName with
  | some p =>
    by_cases same : d.primitive? = some p
    · simp only [same, if_true]
      cases p <;> rfl
    · simp only [same, if_false]
      rfl
  | none =>
    by_cases agree : d.isRecord ∧ d.name = typeName
    · simp only [agree, and_self, if_true]
      cases compiled typeName <;> rfl
    · simp only [agree, if_false]
      rfl

theorem bulk?_eq (container : Container) (element : Descriptor) (elementName : String) :
    Draft.bulk? container element elementName =
      (bulkKind? container element elementName).map Primitive.scalar := by
  cases container with
  | list => simp [Draft.bulk?, bulkKind?]
  | array =>
    cases element with
    | primitive p =>
      cases p with
      | scalar k =>
        by_cases spelled : Primitive.ofSpelling? elementName = some (.scalar k) <;>
          simp [Draft.bulk?, bulkKind?, Descriptor.primitive?, Primitive.width?, spelled]
      | _ => rfl
    | _ => rfl

/-- A draft is chosen where a plan is, and it is the plan. -/
theorem choose_drafts (d : Descriptor) (typeName : String) :
    Draft.choose (drafts compiled) owner d typeName =
      draft <$> choose compiled owner d typeName := by
  induction d generalizing typeName with
  | sequence container element ih =>
    unfold Draft.choose choose
    cases TypeName.element? typeName with
    | some elementName =>
      dsimp only
      rw [bulk?_eq, ih]
      cases bulkKind? container element elementName with
      | some k => rfl
      | none => cases choose compiled owner element elementName <;> rfl
    | none => exact chooseBase_drafts compiled owner _ typeName
  | _ =>
    unfold Draft.choose choose
    cases TypeName.element? typeName with
    | some elementName => rfl
    | none => exact chooseBase_drafts compiled owner _ typeName

theorem chooseFields_drafts (members : List (String × Descriptor)) (children : List Node) :
    Draft.chooseFields (drafts compiled) owner members children =
      draftFields <$> chooseFields compiled owner members children := by
  induction children with
  | nil => rfl
  | cons child others ih =>
    unfold Draft.chooseFields chooseFields
    cases child.name with
    | none => rfl
    | some name =>
      dsimp only
      cases members.lookup name with
      | none => rfl
      | some d =>
        dsimp only
        rw [choose_drafts, ih]
        cases choose compiled owner d child.typeName with
        | error => rfl
        | ok plan => cases chooseFields compiled owner members others <;> rfl

theorem ofNode_drafts (C : Catalog) (node : Node) (d : Descriptor) :
    Draft.ofNode (drafts compiled) C node d = draft <$> ofNode compiled C node d := by
  unfold Draft.ofNode ofNode
  cases d.members? C with
  | none => rfl
  | some members =>
    dsimp only
    rw [chooseFields_drafts]
    cases chooseFields compiled node.typeName members node.children <;> rfl

end Choosing

end Plan

end SchemaCodec
