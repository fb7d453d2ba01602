import SchemaCodec.Program.Conversion
import SchemaCodec.Proofs.Plan.Refusals
import SchemaCodec.Schema.Extraction

/-! # Errors off the wire

Extraction, conversion, the choice of plans and what encoders say on their own never fail with an
error of a reader or a writer: such errors can only come from a sink or a source.
-/

namespace SchemaCodec

variable {α β : Type}

/-- The error has no wire error beneath. -/
def Error.OffWire (e : Error) : Prop := e.source? = none

def OffWire (outcome : Except Error α) : Prop := ∀ e, outcome = .error e → e.OffWire

theorem offWire_ok (x : α) : OffWire (.ok x) := failsOnly_ok x

theorem offWire_error {e : Error} (h : e.OffWire) : OffWire (.error e : Except Error α) :=
  failsOnly_error h

theorem OffWire.bind {outcome : Except Error α} {next : α → Except Error β} (h : OffWire outcome)
    (rest : ∀ x, outcome = .ok x → OffWire (next x)) : OffWire (outcome >>= next) :=
  FailsOnly.bind h rest

theorem OffWire.map {f : α → β} {outcome : Except Error α} (h : OffWire outcome) :
    OffWire (f <$> outcome) :=
  FailsOnly.map h

/-! ## Extraction -/

theorem Discovery.offWire_visitMembers
    {visit : Descriptor → List Descriptor → Except Error (List Descriptor)}
    (h : ∀ d found, OffWire (visit d found)) (owner : String) (members : List (String × Descriptor))
    (seen : List String) (found : List Descriptor) :
    OffWire (visitMembers visit owner seen members found) := by
  induction members generalizing seen found with
  | nil => exact offWire_ok found
  | cons member rest ih =>
    rw [visitMembers]
    split
    · exact offWire_error rfl
    · split
      · next e failed => exact offWire_error (h _ _ e failed)
      · exact ih _ _

theorem Discovery.offWire_visit (C : Catalog) (budget : Nat) (d : Descriptor)
    (found : List Descriptor) : OffWire (visit C budget d found) := by
  induction budget generalizing d found with
  | zero =>
    unfold visit
    split
    · exact offWire_error rfl
    · exact offWire_ok found
    · exact offWire_error rfl
    · exact offWire_ok found
    · split
      · exact offWire_ok found
      · split <;> exact offWire_error rfl
  | succ budget ih =>
    unfold visit
    split
    · exact offWire_error rfl
    · exact offWire_ok found
    · exact offWire_error rfl
    · exact offWire_ok found
    · split
      · exact offWire_ok found
      · split
        · exact offWire_error rfl
        · exact offWire_visitMembers ih _ _ _ _

theorem Ordering.offWire_passes (n : Nat) (listed pending : List Entry) :
    OffWire (passes n listed pending) := by
  induction n generalizing listed pending with
  | zero =>
    cases pending with
    | nil => exact offWire_ok listed
    | cons e rest => exact offWire_error rfl
  | succ n ih =>
    cases pending with
    | nil => exact offWire_ok listed
    | cons e rest =>
      rw [passes]
      · dsimp only
        split
        · exact offWire_error rfl
        · exact ih _ _
      · exact List.cons_ne_nil e rest

theorem Extraction.offWire_ofDescriptor (C : Catalog) (d : Descriptor) :
    OffWire (ofDescriptor C d) :=
  (Discovery.offWire_visit C C.capacity d []).bind fun records _ =>
    (Ordering.offWire_passes _ [] (records.map (entry C))).bind fun _ _ => offWire_ok _

/-! ## Plans -/

namespace Plan

variable (compiled : String → Option Plan) (owner : String)

theorem offWire_chooseBase (d : Descriptor) (typeName : String) :
    OffWire (chooseBase compiled owner d typeName) := by
  unfold chooseBase
  split
  · next p _ =>
    split
    · rcases p with k | _ | _
      · exact offWire_ok _
      · exact offWire_ok _
      · exact offWire_error rfl
    · exact offWire_error rfl
  · split
    · split
      · exact offWire_ok _
      · exact offWire_error rfl
    · exact offWire_error rfl

theorem offWire_choose (d : Descriptor) (typeName : String) :
    OffWire (choose compiled owner d typeName) := by
  induction d generalizing typeName with
  | sequence container element ih =>
    rw [choose]
    split
    · split
      · exact offWire_ok _
      · exact (ih _).map
    · exact offWire_chooseBase compiled owner _ typeName
  | _ =>
    unfold choose
    split
    · exact offWire_error rfl
    · exact offWire_chooseBase compiled owner _ typeName

theorem offWire_chooseFields (members : List (String × Descriptor)) (children : List Node) :
    OffWire (chooseFields compiled owner members children) := by
  induction children with
  | nil => exact offWire_ok []
  | cons child others ih =>
    rw [chooseFields]
    split
    · exact offWire_error rfl
    · split
      · exact offWire_error rfl
      · exact (offWire_choose compiled owner _ _).bind fun _ _ => ih.bind fun _ _ => offWire_ok _

theorem offWire_ofNode (C : Catalog) (node : Node) (d : Descriptor) :
    OffWire (ofNode compiled C node d) := by
  unfold ofNode
  split
  · exact offWire_error rfl
  · exact (offWire_chooseFields compiled _ _ _).map

end Plan

/-! ## Values -/

theorem Error.OfValue.offWire {e : Error} (h : e.OfValue) : e.OffWire := by
  cases h <;> rfl

def Emission.OffWire (e : Emission) : Prop := ∀ err, e.failure = some err → err.OffWire

namespace Plan

theorem offWire_emit (plan : Plan) (v : Value) : (emit plan v).OffWire :=
  fun err failed => (failsOnly_emit plan v err failed).offWire

theorem offWire_exactSize (plan : Plan) (v : Value) : OffWire (exactSize plan v) :=
  fun err failed => (failsOnly_exactSize plan v err failed).offWire

end Plan

namespace Catalog

variable (C : Catalog)

theorem offWire_toValues {xs : List Instance} {t : MessageType}
    (h : ∀ x ∈ xs, ∀ t, OffWire (C.toValue x t)) : OffWire (C.toValues xs t) := by
  induction xs with
  | nil => rw [toValues]; exact offWire_ok []
  | cons x xs ih =>
    rw [toValues]
    exact (h x List.mem_cons_self t).bind fun _ _ =>
      (ih fun y hy => h y (List.mem_cons_of_mem x hy)).bind fun _ _ => offWire_ok _

theorem offWire_toFields {xs : List Instance} {fields : List Field} {args : List MessageType}
    (h : ∀ x ∈ xs, ∀ t, OffWire (C.toValue x t)) : OffWire (C.toFields xs fields args) := by
  induction xs generalizing fields with
  | nil => rw [toFields.eq_def]; exact offWire_ok []
  | cons x xs ih =>
    have rest : ∀ fields, OffWire (C.toFields xs fields args) := fun _ =>
      ih fun y hy => h y (List.mem_cons_of_mem x hy)
    cases fields with
    | nil => rw [toFields.eq_def]; exact offWire_ok []
    | cons f fs =>
      rw [toFields]
      split
      · exact rest fs
      · exact (h x List.mem_cons_self _).bind fun _ _ => (rest fs).bind fun _ _ => offWire_ok _

theorem offWire_toValue (x : Instance) (t : MessageType) : OffWire (C.toValue x t) := by
  induction x generalizing t with
  | scalar k x => rw [toValue]; exact offWire_ok _
  | text s => rw [toValue]; exact offWire_ok _
  | decimal bits => rw [toValue]; exact offWire_error rfl
  | placeholder => rw [toValue]; exact offWire_error rfl
  | items xs ih =>
    cases t with
    | sequence storage element =>
      rw [toValue.eq_def]
      dsimp only
      split
      · split
        · exact offWire_ok _
        · exact offWire_error rfl
      · exact (offWire_toValues C ih).map
    | _ => simp [toValue, OffWire, illTyped, Error.OffWire, Error.source?]
  | record xs ih =>
    cases t with
    | record id args => rw [toValue]; exact (offWire_toFields C ih).map
    | _ => simp [toValue, OffWire, illTyped, Error.OffWire, Error.source?]

end Catalog

end SchemaCodec
