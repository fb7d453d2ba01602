import Mathlib.Data.List.Zip
import SchemaCodec.Proofs.Engine.SameEncoding
import SchemaCodec.Proofs.Plan.Decode
import SchemaCodec.Proofs.Value.Fields

/-! # Runs of scalars in one piece or one by one

Whether sequences of scalars are coded in one piece or element by element makes no difference on the
wire: plans that differ in nothing else write the same bytes and take the same bytes from a buffer.
Only the form of the sequences that are read differs, arrays for the one and lists for the other.
-/

namespace SchemaCodec

namespace Value

/-- The value is a list, or an array of scalars of the kind. -/
def IsRun (k : Scalar) (v : Value) : Prop := (∃ xs, v = .array k xs) ∨ ∃ items, v = .list items

mutual

def itemized : Value → Value
  | scalar k x => .scalar k x
  | text s => .text s
  | array k xs => .list (scalars k xs)
  | list items => .list (itemizedAll items)
  | record typeName fields => .record typeName (itemizedFields fields)

def itemizedAll : List Value → List Value
  | [] => []
  | v :: vs => itemized v :: itemizedAll vs

def itemizedFields : List (String × Value) → List (String × Value)
  | [] => []
  | (name, v) :: rest => (name, itemized v) :: itemizedFields rest

end

variable {k : Scalar}

theorem itemizedAll_eq_map (vs : List Value) : itemizedAll vs = vs.map itemized := by
  induction vs with
  | nil => rw [itemizedAll, List.map_nil]
  | cons v vs ih => rw [itemizedAll, List.map_cons, ih]

theorem itemizedFields_eq_map (fields : List (String × Value)) :
    itemizedFields fields = fields.map fun p => (p.1, itemized p.2) := by
  induction fields with
  | nil => rw [itemizedFields, List.map_nil]
  | cons p rest ih =>
    obtain ⟨name, v⟩ := p
    rw [itemizedFields, List.map_cons, ih]

theorem itemized_scalars (xs : List k.Carrier) :
    itemized (.list (scalars k xs)) = .list (scalars k xs) := by
  have each : itemized ∘ scalar k = scalar k := by
    funext x
    rw [Function.comp_apply, itemized]
  rw [itemized, itemizedAll_eq_map, scalars, List.map_map, each]

end Value

namespace Plan

/-- The plans differ at most in whether sequences of scalars are coded in one piece or one by
one. -/
inductive Recoded : Plan → Plan → Prop

  | same (p : Plan) : Recoded p p

  | itemwise (k : Scalar) : Recoded (.bulk k) (.elements (.scalar k))

  | whole (k : Scalar) : Recoded (.elements (.scalar k)) (.bulk k)

  | elements {p q : Plan} : Recoded p q → Recoded (.elements p) (.elements q)

  | record {typeName : String} {fields fields' : List (String × Plan)} :
      fields.map Prod.fst = fields'.map Prod.fst →
      (∀ field field', (field, field') ∈ fields.zip fields' → Recoded field.2 field'.2) →
      Recoded (.record typeName fields) (.record typeName fields')

/-- Where the plans differ in how they code scalars of a kind, the value has, if anything, a list or
an array of that kind. -/
inductive Suits : Plan → Plan → Value → Prop

  | same (p : Plan) (v : Value) : Suits p p v

  | itemwise {k : Scalar} {v : Value} : v.IsRun k → Suits (.bulk k) (.elements (.scalar k)) v

  | whole {k : Scalar} {v : Value} : v.IsRun k → Suits (.elements (.scalar k)) (.bulk k) v

  | elements {p q : Plan} {v : Value} :
      (∀ items, v.elements? = some items → ∀ w ∈ items, Suits p q w) →
      Suits (.elements p) (.elements q) v

  | record {typeName : String} {fields fields' : List (String × Plan)} {v : Value} :
      fields.map Prod.fst = fields'.map Prod.fst →
      (∀ field field', (field, field') ∈ fields.zip fields' →
        ∀ w, v.field? field.1 = some w → Suits field.2 field'.2 w) →
      Suits (.record typeName fields) (.record typeName fields') v

variable {p q : Plan} {v : Value} {limits : Limits} {piece : List UInt8} {k : Scalar}

theorem Recoded.symm (h : Recoded p q) : Recoded q p := by
  induction h with
  | same p => exact .same p
  | itemwise k => exact .whole k
  | whole k => exact .itemwise k
  | elements _ ih => exact .elements ih
  | record names _ ih =>
    refine .record names.symm fun field field' mem => ih field' field ?_
    rw [← List.zip_swap]
    exact List.mem_map.mpr ⟨_, mem, rfl⟩

theorem forall₂_named {α : Type} {xs ys : List (String × α)}
    (names : xs.map Prod.fst = ys.map Prod.fst) :
    List.Forall₂ (fun x y => x.1 = y.1 ∧ (x, y) ∈ xs.zip ys) xs ys := by
  have pairs := forall₂_of_map_eq names
  rw [List.forall₂_iff_zip] at pairs ⊢
  exact ⟨pairs.1, fun mem => ⟨(pairs.2 mem).1, mem⟩⟩

/-! ## Writing -/

theorem Suits.sameEncoding (h : Suits p q v) : p.SameEncoding q v := by
  induction h with
  | same p v => exact .refl p v
  | itemwise run => exact sameEncoding_bulk run
  | whole run => exact (sameEncoding_bulk run).symm
  | @elements p q v _ ih =>
    cases found : v.elements? with
    | some items => exact sameEncoding_elements found (ih items found)
    | none =>
      rw [SameEncoding, emit, emit, exactSize_elements, exactSize_elements, found]
      exact ⟨.refl _, rfl⟩
  | @record typeName fields fields' v names _ ih =>
    cases v with
    | record other values =>
      refine sameEncoding_record ((forall₂_named names).imp ?_)
      rintro field field' ⟨same, mem⟩
      exact ⟨same, fun w found => ih field field' mem w found, fun _ => rfl⟩
    | _ =>
      simp only [SameEncoding, emit, exactSize]
      exact ⟨.refl _, trivial⟩

/-- The plans end alike on growing memory, which they leave with the same bytes, and they find the
same size. -/
def WriteAlike (p q : Plan) (v : Value) : Prop :=
  (∀ reversed, p.encode v (.growing reversed) = q.encode v (.growing reversed)) ∧
    p.exactSize v = q.exactSize v

theorem SameEncoding.writeAlike (h : p.SameEncoding q v) : p.WriteAlike q v := by
  refine ⟨fun reversed => ?_, h.2⟩
  rw [encode, encode, Emission.writeTo_growing, Emission.writeTo_growing, h.1.1, h.1.2]

/-! ## Reading -/

theorem Recoded.reads (h : Recoded p q) (read : Reads limits p piece v) :
    ∃ w, Reads limits q piece w ∧ w.itemized = v.itemized := by
  induction h generalizing piece v with
  | same p => exact ⟨v, read, rfl⟩
  | itemwise k =>
    obtain ⟨xs, rfl, read'⟩ := reads_bulk_iff.mp read
    exact ⟨_, read', Value.itemized_scalars xs⟩
  | whole k =>
    obtain ⟨xs, rfl, read'⟩ := reads_elements_scalar_iff.mp read
    exact ⟨_, read', (Value.itemized_scalars xs).symm⟩
  | elements _ ih =>
    obtain ⟨items, items', rfl, read', same⟩ :=
      reads_elements_agree (S := fun v w => v.itemized = w.itemized)
        (fun _ _ read => (ih read).imp fun _ h => ⟨h.1, h.2.symm⟩) read
    refine ⟨_, read', ?_⟩
    rw [Value.itemized, Value.itemized, Value.itemizedAll_eq_map, Value.itemizedAll_eq_map]
    exact congrArg Value.list (map_eq_map same).symm
  | @record typeName fields fields' names _ ih =>
    rw [Reads] at read
    obtain ⟨values, rfl, all⟩ := read
    have each : List.Forall₂ (fun field field' => field.1 = field'.1 ∧ ∀ piece v,
        Reads limits field.2 piece v → ∃ w, Reads limits field'.2 piece w ∧
          w.itemized = v.itemized) fields fields' :=
      (forall₂_named names).imp fun field field' h => ⟨h.1, fun _ _ => ih field field' h.2⟩
    obtain ⟨-, values', all', same⟩ :=
      readsFields_agree (S := fun _ v w => w.itemized = v.itemized) each all
    refine ⟨.record typeName (Fields.ofList values'), ?_, ?_⟩
    · rw [Reads]
      exact ⟨values', rfl, all'⟩
    · have entries : values'.map (fun p => (p.1, p.2.itemized)) =
          values.map fun p => (p.1, p.2.itemized) :=
        (map_eq_map (same.imp fun _ _ h => Prod.ext h.1 h.2.symm)).symm
      rw [Value.itemized, Value.itemized, Value.itemizedFields_eq_map,
        Value.itemizedFields_eq_map, Fields.map_ofList, Fields.map_ofList, entries]

theorem decode_of_reads {q : Plan} {S : Value → Value → Prop}
    (each : ∀ piece v, Reads limits p piece v → ∃ w, Reads limits q piece w ∧ S v w)
    {position : Nat} {bytes : List UInt8} {v : Value} {s : Source}
    (h : p.decode limits (.buffer position bytes) = .ok v s) :
    ∃ w, q.decode limits (.buffer position bytes) = .ok w s ∧ S v w := by
  obtain ⟨piece, rest, rfl, rfl, read⟩ := (accepts_decode p _ _ _ _).mp h
  obtain ⟨w, read', same⟩ := each piece v read
  exact ⟨w, (accepts_decode q).run read' position rest, same⟩

/-- A list or an array of a kind is written alike in one piece and element by element; what is read
in one piece is the array of the scalars that are read one by one from the same bytes. Plans that
differ only in this write alike all values that have such lists or arrays where the plans differ,
and from every buffer they read the same values, up to the form of the sequences. -/
theorem recoded_agree :
    (∀ k v, v.IsRun k → (Plan.bulk k).WriteAlike (.elements (.scalar k)) v) ∧
    (∀ k limits position bytes s,
      (∀ v, (Plan.bulk k).decode limits (.buffer position bytes) = .ok v s →
        ∃ xs, v = .array k xs ∧ (Plan.elements (.scalar k)).decode limits (.buffer position bytes) =
          .ok (.list (Value.scalars k xs)) s) ∧
      ∀ w, (Plan.elements (.scalar k)).decode limits (.buffer position bytes) = .ok w s →
        ∃ xs, w = .list (Value.scalars k xs) ∧
          (Plan.bulk k).decode limits (.buffer position bytes) = .ok (.array k xs) s) ∧
    ∀ p q, Recoded p q →
      (∀ v, Suits p q v → p.WriteAlike q v) ∧
      ∀ limits position bytes s,
        (∀ v, p.decode limits (.buffer position bytes) = .ok v s →
          ∃ w, q.decode limits (.buffer position bytes) = .ok w s ∧ w.itemized = v.itemized) ∧
        ∀ w, q.decode limits (.buffer position bytes) = .ok w s →
          ∃ v, p.decode limits (.buffer position bytes) = .ok v s ∧ w.itemized = v.itemized := by
  refine ⟨?_, ?_, ?_⟩
  · intro k v run
    exact (sameEncoding_bulk run).writeAlike
  · intro k limits position bytes s
    constructor
    · intro v h
      obtain ⟨w, h', xs, rfl, rfl⟩ := decode_of_reads (q := .elements (.scalar k))
        (S := fun v w => ∃ xs, v = .array k xs ∧ w = .list (Value.scalars k xs))
        (fun piece v read => by
          obtain ⟨xs, rfl, read'⟩ := reads_bulk_iff.mp read
          exact ⟨_, read', xs, rfl, rfl⟩) h
      exact ⟨xs, rfl, h'⟩
    · intro w h
      obtain ⟨v, h', xs, rfl, rfl⟩ := decode_of_reads (q := .bulk k)
        (S := fun w v => ∃ xs, w = .list (Value.scalars k xs) ∧ v = .array k xs)
        (fun piece w read => by
          obtain ⟨xs, rfl, read'⟩ := reads_elements_scalar_iff.mp read
          exact ⟨_, read', xs, rfl, rfl⟩) h
      exact ⟨xs, rfl, h'⟩
  · intro p q recoded
    refine ⟨fun v suits => suits.sameEncoding.writeAlike, ?_⟩
    intro limits position bytes s
    constructor
    · intro v h
      exact decode_of_reads (S := fun v w => w.itemized = v.itemized)
        (fun _ _ read => recoded.reads read) h
    · intro w h
      obtain ⟨v, h', same⟩ := decode_of_reads (S := fun w v => v.itemized = w.itemized)
        (fun _ _ read => recoded.symm.reads read) h
      exact ⟨v, h', same.symm⟩

/-- A record whose first member is in one piece under one plan, and whose second member is under the
other. -/
theorem recoded_agree_pair : ∃ p q,
    p = Plan.record "R" [("xs", .bulk .int16), ("ys", .elements (.scalar .boolean))] ∧
    q = Plan.record "R" [("xs", .elements (.scalar .int16)), ("ys", .bulk .boolean)] ∧
    p.WriteAlike q (.record "R" [("xs", .list [.scalar .int16 1]), ("ys", .array .boolean [true])]) ∧
    ∃ w, q.decode .standard (.buffer 0 [1, 0, 0, 0, 1, 0, 1, 0, 0, 0, 1]) =
        .ok w (.buffer 11 []) ∧
      w.itemized =
        .record "R" [("xs", .list [.scalar .int16 1]), ("ys", .list [.scalar .boolean true])] := by
  have recoded : Recoded (.record "R" [("xs", .bulk .int16), ("ys", .elements (.scalar .boolean))])
      (.record "R" [("xs", .elements (.scalar .int16)), ("ys", .bulk .boolean)]) := by
    refine .record rfl fun field field' mem => ?_
    rcases List.mem_cons.mp mem with same | mem
    · obtain ⟨rfl, rfl⟩ := Prod.mk.inj same
      exact .itemwise .int16
    · obtain ⟨rfl, rfl⟩ := Prod.mk.inj (List.mem_singleton.mp mem)
      exact .whole .boolean
  have suits : Suits (.record "R" [("xs", .bulk .int16), ("ys", .elements (.scalar .boolean))])
      (.record "R" [("xs", .elements (.scalar .int16)), ("ys", .bulk .boolean)])
      (.record "R" [("xs", .list [.scalar .int16 1]), ("ys", .array .boolean [true])]) := by
    refine .record rfl fun field field' mem w found => ?_
    rcases List.mem_cons.mp mem with same | mem
    · obtain ⟨rfl, rfl⟩ := Prod.mk.inj same
      obtain ⟨⟩ := found
      exact .itemwise (.inr ⟨_, rfl⟩)
    · obtain ⟨rfl, rfl⟩ := Prod.mk.inj (List.mem_singleton.mp mem)
      obtain ⟨⟩ := found
      exact .whole (.inl ⟨_, rfl⟩)
  have decoded : decode .standard
      (.record "R" [("xs", .bulk .int16), ("ys", .elements (.scalar .boolean))])
      (.buffer 0 [1, 0, 0, 0, 1, 0, 1, 0, 0, 0, 1]) =
        .ok (.record "R" [("xs", .array .int16 [1]), ("ys", .list [.scalar .boolean true])])
          (.buffer 11 []) := rfl
  obtain ⟨written, read⟩ := recoded_agree.2.2 _ _ recoded
  obtain ⟨w, decoded', same⟩ := (read .standard 0 _ _).1 _ decoded
  exact ⟨_, _, rfl, rfl, written _ suits, w, decoded', same⟩

end Plan

end SchemaCodec
