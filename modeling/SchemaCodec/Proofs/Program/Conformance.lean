import SchemaCodec.Proofs.Plan.Decode
import SchemaCodec.Proofs.Program.Fitting

/-! # Plans that conform to types

The plan of a record may leave members out, repeat them and take them in any order, as long as each
of them is coded as one of the record. Whatever such a plan reads is a value of the record: members
that were left out keep their initial values. Reading fails only on the bytes.
-/

namespace SchemaCodec

open MessageType Plan

/-! ## Reading fails on data -/

/-- The data are at fault, and not what is known of their type. -/
inductive Error.OfData : Error → Prop

  | wire (error : WireError) : OfData (.wire error)

  | malformed (reason : Malformed) : OfData (.malformed reason)

namespace Decoder

variable {α β : Type} {limits : Limits}

def FailsOnData (step : Decoder α) : Prop := ∀ s e s', step s = .error e s' → e.OfData

theorem failsOnData_pure (x : α) : FailsOnData (pure x) := fun _ _ _ no => by cases no

theorem failsOnData_malformed (reason : Malformed) :
    FailsOnData (throw (.malformed reason) : Decoder α) := by
  rintro s _ _ ⟨⟩
  exact .malformed reason

theorem failsOnData_ofReader (reader : Reader α) : FailsOnData (ofReader reader) := by
  intro s e s' h
  rw [ofReader] at h
  split at h
  · cases h
  · cases h
    exact .wire _

theorem failsOnData_position : FailsOnData position := fun _ _ _ no => by cases no

theorem FailsOnData.bind {step : Decoder α} {next : α → Decoder β} (h : FailsOnData step)
    (rest : ∀ x, FailsOnData (next x)) : FailsOnData (step >>= next) := by
  intro s e s' failed
  change EStateM.bind step next s = .error e s' at failed
  unfold EStateM.bind at failed
  cases first : step s with
  | ok x middle =>
    rw [first] at failed
    exact rest x middle e s' failed
  | error e' middle =>
    rw [first] at failed
    cases failed
    exact h s e s' first

theorem failsOnData_count (counted : Counted) (limit : Nat) :
    FailsOnData (count counted limit) := by
  apply failsOnData_position.bind fun offset => (failsOnData_ofReader _).bind fun raw => ?_
  split
  · exact failsOnData_malformed _
  · dsimp only
    split
    · exact failsOnData_malformed _
    · exact failsOnData_pure _

theorem failsOnData_text (limit : Nat) : FailsOnData (text limit) := by
  apply (failsOnData_count _ _).bind fun length => (failsOnData_ofReader _).bind fun bytes => ?_
  split
  · exact failsOnData_pure _
  · exact failsOnData_malformed _

theorem FailsOnData.times {step : Decoder α} (h : FailsOnData step) (n : Nat) :
    FailsOnData (Decoder.times step n) := by
  induction n with
  | zero => exact failsOnData_pure []
  | succ n ih => exact h.bind fun x => ih.bind fun xs => failsOnData_pure _

theorem failsOnData_decodeFields {fields : List (String × Plan)}
    (h : ∀ p ∈ fields, FailsOnData (p.2.decode limits)) :
    FailsOnData (decodeFields limits fields) := by
  induction fields with
  | nil =>
    rw [decodeFields]
    exact failsOnData_pure []
  | cons field rest ih =>
    obtain ⟨name, plan⟩ := field
    obtain ⟨head, tail⟩ := List.forall_mem_cons.mp h
    rw [decodeFields]
    exact head.bind fun v => (ih tail).bind fun vs => failsOnData_pure _

theorem failsOnData_decode (plan : Plan) : FailsOnData (plan.decode limits) := by
  induction plan with
  | scalar k =>
    rw [decode]
    exact (failsOnData_ofReader _).bind fun x => failsOnData_pure _
  | text =>
    rw [decode]
    exact (failsOnData_text _).bind fun s => failsOnData_pure _
  | bulk k =>
    rw [decode]
    apply (failsOnData_count _ _).bind fun count => (failsOnData_ofReader _).bind fun xs => ?_
    exact failsOnData_pure _
  | elements element ih =>
    rw [decode]
    exact (failsOnData_count _ _).bind fun count => (ih.times _).bind fun xs => failsOnData_pure _
  | record typeName fields ih =>
    rw [decode]
    exact (failsOnData_decodeFields ih).bind fun values => failsOnData_pure _

end Decoder

namespace Catalog

/-! ## What a conforming plan reads -/

/-- The plan reads values of the type. It need not read every member of a record. -/
inductive Conforms (C : Catalog) : Plan → MessageType → Prop

  | scalar (k : Scalar) : Conforms C (.scalar k) (.scalar k)

  | text : Conforms C .text .string

  | bulk (k : Scalar) (storage : Storage) : Conforms C (.bulk k) (.sequence storage (.scalar k))

  | elements {plan : Plan} {storage : Storage} {t : MessageType} : Conforms C plan t →
      Conforms C (.elements plan) (.sequence storage t)

  | record {typeName : String} {fields : List (String × Plan)} {id : RecordId}
      {args : List MessageType} :
      (∀ p ∈ fields, ∀ t, (p.1, t) ∈ C.members id args → Conforms C p.2 t) →
      Conforms C (.record typeName fields) (.record id args)

variable {C : Catalog} {types : Set MessageType} {limits : Limits} {plan : Plan}
  {t : MessageType} {d : Descriptor} {typeName : String} {id : RecordId} {args : List MessageType}

theorem exists_ofValues {vs : List Value} (h : ∀ v ∈ vs, ∃ x, C.ofValue v t = .ok x) :
    ∃ xs, C.ofValues vs t = .ok xs := by
  induction vs with
  | nil => exact ⟨[], by rw [ofValues]⟩
  | cons v vs ih =>
    obtain ⟨⟨x, head⟩, rest⟩ := List.forall_mem_cons.mp h
    obtain ⟨xs, tail⟩ := ih rest
    refine ⟨x :: xs, ?_⟩
    rw [ofValues]
    exact bind_eq_ok.mpr ⟨x, head, bind_eq_ok.mpr ⟨xs, tail, rfl⟩⟩

theorem exists_assign (values : List (String × Value)) (args : List MessageType) (fs : List Field)
    (h : ∀ f ∈ fs, f.skipped = false → ∀ v, Fields.get? f.name values = some v →
      ∃ x, C.ofValue v (f.type.subst args) = .ok x) :
    ∃ xs, C.assign (C.fieldReaders values) args fs = .ok xs := by
  induction fs with
  | nil => exact ⟨[], by rw [assign]⟩
  | cons f fs ih =>
    obtain ⟨head, tail⟩ := List.forall_mem_cons.mp h
    obtain ⟨xs, rest⟩ := ih tail
    rw [assign, get?_fieldReaders, rest]
    cases skipped : f.skipped with
    | true => exact ⟨_, rfl⟩
    | false =>
      cases found : Fields.get? f.name values with
      | none => exact ⟨_, rfl⟩
      | some v =>
        obtain ⟨x, read⟩ := head skipped v found
        refine ⟨x :: xs, ?_⟩
        simp [read, bind, Except.bind, pure, Except.pure]

theorem exists_field {fields : List (String × Plan)} {piece : List UInt8}
    {values : List (String × Value)} (h : ReadsFields limits fields piece values) :
    ∀ p ∈ values, ∃ plan front, (p.1, plan) ∈ fields ∧ Reads limits plan front p.2 := by
  induction fields generalizing piece values with
  | nil =>
    rw [ReadsFields] at h
    simp [h.2]
  | cons field rest ih =>
    obtain ⟨name, plan⟩ := field
    rw [ReadsFields] at h
    obtain ⟨front, back, v, others, rfl, rfl, first, later⟩ := h
    intro p hp
    rcases List.mem_cons.mp hp with rfl | hp
    · exact ⟨plan, front, List.mem_cons_self, first⟩
    · obtain ⟨plan', front', mem, read⟩ := ih later p hp
      exact ⟨plan', front', List.mem_cons_of_mem _ mem, read⟩

theorem Conforms.exists_ofValue (h : C.Conforms plan t) {piece : List UInt8} {v : Value}
    (read : Reads limits plan piece v) : ∃ x, C.ofValue v t = .ok x := by
  induction h generalizing piece v with
  | scalar k =>
    rw [Reads] at read
    obtain ⟨x, rfl, -⟩ := read
    exact ⟨.scalar k x, by rw [ofValue, if_pos rfl]⟩
  | text =>
    rw [Reads] at read
    obtain ⟨s, -, -, rfl, -⟩ := read
    exact ⟨.text s, by rw [ofValue]⟩
  | bulk k storage =>
    rw [Reads] at read
    obtain ⟨xs, -, -, rfl, -⟩ := read
    exact ⟨_, by rw [ofValue, elementsOfArray, if_pos rfl]; rfl⟩
  | elements _ ih =>
    rw [Reads] at read
    obtain ⟨items, -, pieces, rfl, -, -, all⟩ := read
    obtain ⟨xs, made⟩ := exists_ofValues fun w hw => by
      obtain ⟨front, -, inner⟩ := partner_left all hw
      exact ih inner
    exact ⟨.items xs, by rw [ofValue, made]; rfl⟩
  | @record typeName fields id args _ ih =>
    rw [Reads] at read
    obtain ⟨values, rfl, all⟩ := read
    have each : ∀ f ∈ (C.declaration id).fields, f.skipped = false → ∀ w,
        Fields.get? f.name (Fields.ofList values) = some w →
        ∃ x, C.ofValue w (f.type.subst args) = .ok x := by
      intro f hf kept w found
      obtain ⟨plan, front, mem, inner⟩ :=
        exists_field all _ (Fields.mem_of_mem_ofList (Fields.mem_of_get? found))
      apply ih _ mem _ _ inner
      exact List.mem_map.mpr ⟨f, List.mem_filter.mpr ⟨hf, by simp [kept]⟩, rfl⟩
    obtain ⟨xs, made⟩ := exists_assign _ args _ each
    exact ⟨.record xs, by rw [ofValue, made]; rfl⟩

theorem Conforms.decode (h : C.Conforms plan t) (bytes : List UInt8) :
    (∃ v s x, plan.decode limits (.ofBytes bytes) = .ok v s ∧ C.ofValue v t = .ok x) ∨
      ∃ e s, plan.decode limits (.ofBytes bytes) = .error e s ∧ e.OfData := by
  cases decoded : plan.decode limits (.ofBytes bytes) with
  | ok v s =>
    obtain ⟨piece, -, -, -, read⟩ := (accepts_decode plan _ _ _ _).mp decoded
    obtain ⟨x, made⟩ := h.exists_ofValue read
    exact .inl ⟨v, s, x, rfl, made⟩
  | error e s => exact .inr ⟨e, s, rfl, Decoder.failsOnData_decode plan _ e s decoded⟩

/-! ## What is chosen conforms -/

/-- The plan conforms to the records of the set that have the name. -/
def ConformsAs (C : Catalog) (types : Set MessageType) (name : String) (plan : Plan) : Prop :=
  ∀ id args, C.Occurs types (.record id args) → (MessageType.record id args).name = name →
    C.Conforms plan (.record id args)

/-- Every plan conforms to the records of the set that have its name. -/
def Vetted (C : Catalog) (types : Set MessageType) (compiled : String → Option Plan) : Prop :=
  ∀ name plan, compiled name = some plan → C.ConformsAs types name plan

variable {compiled : String → Option Plan}

theorem Vetted.conforms (vetted : C.Vetted types compiled)
    (chosen : Plan.Chosen compiled d typeName plan) (depicts : Depicts C C types d t)
    (occurs : C.Occurs types t) : C.Conforms plan t := by
  induction chosen generalizing t with
  | scalar =>
    cases depicts with
    | primitive => exact .scalar _
  | text =>
    cases depicts with
    | primitive => exact .text
  | record _ _ isRecord named found =>
    obtain ⟨id, args, rfl⟩ := depicts.exists_record isRecord
    exact vetted _ _ found id args occurs (depicts.name_eq.symm.trans named)
  | bulk =>
    cases depicts with
    | sequence depicts =>
      cases depicts with
      | primitive => exact .bulk _ _
  | elements _ _ _ ih =>
    cases depicts with
    | sequence depicts => exact .elements (ih depicts occurs.element)

/-- What a node is compiled to at a description of a record conforms to the record, whatever
children the node has. -/
theorem Vetted.conforms_ofNode (vetted : C.Vetted types compiled)
    (consistent : C.Consistent types) (unique : ((C.members id args).map Prod.fst).Nodup)
    (occurs : C.Occurs types (.record id args)) (depicts : Depicts C C types d (.record id args))
    {node : Node} (h : Plan.ofNode compiled C node d = .ok plan) :
    C.Conforms plan (.record id args) := by
  obtain ⟨members, fields, known, rfl, all⟩ := Plan.ofNode_iff.mp h
  obtain ⟨members', known', -, only⟩ := depicts.members consistent occurs
  obtain rfl : members = members' := Option.some.inj (known.symm.trans known')
  constructor
  intro field hfield t mem
  obtain ⟨child, -, d', -, found, chosen⟩ := partner_left all hfield
  obtain ⟨t', mem', depicts'⟩ := only _ (mem_of_lookup found)
  have same := (lookup_of_mem unique mem').symm.trans (lookup_of_mem unique mem)
  obtain rfl := Option.some.inj same
  exact vetted.conforms chosen depicts' (occurs.member mem)

end Catalog

end SchemaCodec
