import SchemaCodec.Proofs.Plan.Counts
import SchemaCodec.Proofs.Program.Conformance

/-! # Elements backed by bytes

A count is not compared with what is left of the input: only reading the elements can show that
there are fewer of them. That works where an element takes at least one byte, hence for everything
but records without any data.
-/

namespace SchemaCodec

namespace Value

mutual

/-- The number of elements of all sequences in a value, where the bytes of a text count as
elements. -/
def elementCount : Value → Nat
  | scalar _ _ => 0
  | text s => (Utf8.encode s).length
  | array _ xs => xs.length
  | list items => items.length + elementCounts items
  | record _ fields => fieldCounts fields

def elementCounts : List Value → Nat
  | [] => 0
  | v :: vs => elementCount v + elementCounts vs

def fieldCounts : List (String × Value) → Nat
  | [] => 0
  | (_, v) :: rest => elementCount v + fieldCounts rest

end

theorem fieldCounts_insert (name : String) (v : Value) (fields : List (String × Value)) :
    fieldCounts (Fields.insert name v fields) ≤ fieldCounts fields + elementCount v := by
  induction fields with
  | nil => simp [Fields.insert, fieldCounts]
  | cons field rest ih =>
    obtain ⟨other, w⟩ := field
    rw [Fields.insert]
    split
    · simp only [fieldCounts]
      omega
    · split
      · simp only [fieldCounts]
        omega
      · simp only [fieldCounts]
        omega

theorem fieldCounts_ofList (values : List (String × Value)) :
    fieldCounts (Fields.ofList values) ≤ fieldCounts values := by
  have grown : ∀ fields : List (String × Value),
      fieldCounts (values.foldl (fun fields (name, v) => Fields.insert name v fields) fields) ≤
        fieldCounts fields + fieldCounts values := by
    induction values with
    | nil => exact fun fields => Nat.le_add_right _ _
    | cons entry rest ih =>
      obtain ⟨name, v⟩ := entry
      intro fields
      have step := fieldCounts_insert name v fields
      rw [List.foldl_cons, fieldCounts]
      refine Nat.le_trans (ih (Fields.insert name v fields)) ?_
      omega
  have all := grown []
  rwa [fieldCounts, Nat.zero_add] at all

end Value

theorem IsCount.length_eq {count limit : Nat} {front : List UInt8} (h : IsCount count limit front) :
    front.length = countSize := by
  rw [h.2.2]
  exact LittleEndian.length_split _ _

namespace Plan

/-- The plan takes no bytes: it is that of a record without data. -/
inductive Hollow : Plan → Prop

  | record {typeName : String} {fields : List (String × Plan)} :
      (∀ p ∈ fields, Hollow p.2) → Hollow (.record typeName fields)

/-- The elements of every sequence take bytes. -/
inductive Backed : Plan → Prop

  | scalar (k : Scalar) : Backed (.scalar k)

  | text : Backed .text

  | bulk (k : Scalar) : Backed (.bulk k)

  | elements {element : Plan} : ¬ Hollow element → Backed element → Backed (.elements element)

  | record {typeName : String} {fields : List (String × Plan)} :
      (∀ p ∈ fields, Backed p.2) → Backed (.record typeName fields)

variable {limits : Limits} {p : Plan} {piece : List UInt8} {v : Value}

theorem length_le_flatten {α : Type} {R : List UInt8 → α → Prop} {pieces : List (List UInt8)}
    {xs : List α} (all : List.Forall₂ R pieces xs) (taken : ∀ piece x, R piece x → piece ≠ []) :
    xs.length ≤ pieces.flatten.length := by
  induction all with
  | nil => exact Nat.le_refl 0
  | cons head _ ih =>
    have first := List.length_pos_of_ne_nil (taken _ _ head)
    rw [List.flatten_cons, List.length_append, List.length_cons]
    omega

/-! ## Hollow plans -/

theorem hollow_of_readsFields {fields : List (String × Plan)} {values : List (String × Value)}
    (each : ∀ field ∈ fields, ∀ v, Reads limits field.2 [] v → field.2.Hollow)
    (h : ReadsFields limits fields [] values) : ∀ field ∈ fields, field.2.Hollow := by
  induction fields generalizing values with
  | nil => exact List.forall_mem_nil _
  | cons field rest ih =>
    obtain ⟨name, plan⟩ := field
    obtain ⟨head, tail⟩ := List.forall_mem_cons.mp each
    rw [ReadsFields] at h
    obtain ⟨front, back, w, others, none, rfl, first, later⟩ := h
    obtain ⟨rfl, rfl⟩ := List.append_eq_nil_iff.mp none.symm
    exact List.forall_mem_cons.mpr ⟨head w first, ih tail later⟩

theorem hollow_of_reads (h : Reads limits p [] v) : p.Hollow := by
  induction p generalizing v with
  | scalar k =>
    rw [Reads] at h
    obtain ⟨x, rfl, width, -⟩ := h
    exact absurd width (Nat.ne_of_lt k.width_pos)
  | text =>
    rw [Reads] at h
    obtain ⟨s, front, bytes, rfl, none, counted, -⟩ := h
    have length := counted.length_eq
    rw [(List.append_eq_nil_iff.mp none.symm).1] at length
    cases length
  | bulk k =>
    rw [Reads] at h
    obtain ⟨xs, front, pieces, rfl, none, counted, -⟩ := h
    have length := counted.length_eq
    rw [(List.append_eq_nil_iff.mp none.symm).1] at length
    cases length
  | elements element =>
    rw [Reads] at h
    obtain ⟨items, front, pieces, rfl, none, counted, -⟩ := h
    have length := counted.length_eq
    rw [(List.append_eq_nil_iff.mp none.symm).1] at length
    cases length
  | record typeName fields ih =>
    rw [Reads] at h
    obtain ⟨values, rfl, all⟩ := h
    exact .record (hollow_of_readsFields (fun field mem v => ih field mem) all)

theorem ne_nil_of_reads (solid : ¬ p.Hollow) (h : Reads limits p piece v) : piece ≠ [] := by
  rintro rfl
  exact solid (hollow_of_reads h)

/-! ## The bound -/

theorem elementCounts_le {element : Plan} {pieces : List (List UInt8)} {items : List Value}
    (all : List.Forall₂ (Reads limits element) pieces items)
    (each : ∀ piece v, Reads limits element piece v → v.elementCount < piece.length) :
    items.length + Value.elementCounts items ≤ pieces.flatten.length := by
  induction all with
  | nil => exact Nat.le_refl 0
  | cons head _ ih =>
    have first := each _ _ head
    rw [List.flatten_cons, List.length_append, List.length_cons, Value.elementCounts]
    omega

theorem fieldCounts_le {fields : List (String × Plan)} {values : List (String × Value)}
    (each : ∀ field ∈ fields, ∀ piece v, Reads limits field.2 piece v →
      v.elementCount ≤ piece.length ∧ (¬ field.2.Hollow → v.elementCount < piece.length))
    (h : ReadsFields limits fields piece values) :
    Value.fieldCounts values ≤ piece.length ∧
      ((∃ field ∈ fields, ¬ field.2.Hollow) → Value.fieldCounts values < piece.length) := by
  induction fields generalizing piece values with
  | nil =>
    rw [ReadsFields] at h
    obtain ⟨rfl, rfl⟩ := h
    refine ⟨Nat.le_refl 0, ?_⟩
    rintro ⟨_, mem, -⟩
    cases mem
  | cons field rest ih =>
    obtain ⟨name, plan⟩ := field
    obtain ⟨head, tail⟩ := List.forall_mem_cons.mp each
    rw [ReadsFields] at h
    obtain ⟨front, back, w, others, rfl, rfl, first, later⟩ := h
    obtain ⟨low, less⟩ := head front w first
    obtain ⟨low', less'⟩ := ih tail later
    rw [Value.fieldCounts, List.length_append]
    refine ⟨Nat.add_le_add low low', ?_⟩
    rintro ⟨field, mem, solid⟩
    rcases List.mem_cons.mp mem with rfl | mem
    · exact Nat.add_lt_add_of_lt_of_le (less solid) low'
    · exact Nat.add_lt_add_of_le_of_lt low (less' ⟨field, mem, solid⟩)

/-- A value has at most as many elements as bytes were taken for it, and fewer if its plan takes
any. -/
theorem elementCount_le (backed : p.Backed) (h : Reads limits p piece v) :
    v.elementCount ≤ piece.length ∧ (¬ p.Hollow → v.elementCount < piece.length) := by
  induction p generalizing piece v with
  | scalar k =>
    rw [Reads] at h
    obtain ⟨x, rfl, width, -⟩ := h
    have positive : 0 < piece.length := width.symm ▸ k.width_pos
    rw [Value.elementCount]
    exact ⟨Nat.zero_le _, fun _ => positive⟩
  | text =>
    rw [Reads] at h
    obtain ⟨s, front, bytes, rfl, rfl, counted, decoded⟩ := h
    rw [Value.elementCount, Utf8.encode_of_decode decoded, List.length_append,
      counted.length_eq, countSize]
    exact ⟨by omega, fun _ => by omega⟩
  | bulk k =>
    rw [Reads] at h
    obtain ⟨xs, front, pieces, rfl, rfl, counted, all⟩ := h
    have taken : xs.length ≤ pieces.flatten.length := by
      refine length_le_flatten all ?_
      rintro _ x ⟨width, -⟩ rfl
      exact absurd width (Nat.ne_of_lt k.width_pos)
    rw [Value.elementCount, List.length_append, counted.length_eq, countSize]
    exact ⟨by omega, fun _ => by omega⟩
  | elements element ih =>
    rw [Reads] at h
    obtain ⟨items, front, pieces, rfl, rfl, counted, all⟩ := h
    cases backed with
    | elements solid inner =>
      have taken := elementCounts_le all fun piece v read => (ih inner read).2 solid
      rw [Value.elementCount, List.length_append, counted.length_eq, countSize]
      exact ⟨by omega, fun _ => by omega⟩
  | record typeName fields ih =>
    rw [Reads] at h
    obtain ⟨values, rfl, all⟩ := h
    cases backed with
    | record inner =>
      obtain ⟨low, less⟩ :=
        fieldCounts_le (fun field mem piece v => ih field mem (inner field mem)) all
      have fewer := Value.fieldCounts_ofList values
      rw [Value.elementCount]
      refine ⟨Nat.le_trans fewer low, fun solid => Nat.lt_of_le_of_lt fewer (less ?_)⟩
      by_contra none
      refine solid (.record fun field mem => ?_)
      by_contra taken
      exact none ⟨field, mem, taken⟩

/-! ## Counts above what is left -/

variable {s t : Source} {n : Nat} {items : List Value}

theorem times_le (solid : ¬ p.Hollow) (h : Decoder.times (p.decode limits) n s = .ok items t) :
    n + t.unread.length ≤ s.unread.length := by
  induction n generalizing items s with
  | zero =>
    obtain ⟨-, rfl⟩ := EStateM.Result.ok.inj h
    exact Nat.le_of_eq (Nat.zero_add _)
  | succ n ih =>
    obtain ⟨v, s', head, rest⟩ := Source.run_bind.mp h
    obtain ⟨others, s'', tail, ended⟩ := Source.run_bind.mp rest
    obtain ⟨-, rfl⟩ := EStateM.Result.ok.inj ended
    obtain ⟨piece, taken, read⟩ := reads_of_decode head
    have some := List.length_pos_of_ne_nil (ne_nil_of_reads solid read)
    have later := ih tail
    rw [taken, List.length_append]
    omega

/-- A plan with a count that yields a value finds as many bytes behind the count. -/
theorem count_le {q : Plan} {s' : Source} {counted : Counted} {limit : Nat} {raw : Int32}
    (begins : q.counted? limits = some (counted, limit))
    (solid : ∀ element, q = .elements element → ¬ element.Hollow)
    (read : Reader.scalar .int32 s = .ok raw t) (h : q.decode limits s = .ok v s') :
    raw.toInt ≤ t.unread.length := by
  have counts : ∀ {n u}, Decoder.count counted limit s = .ok n u → n ≤ u.unread.length →
      raw.toInt ≤ t.unread.length := by
    intro n u counts enough
    rw [Decoder.count_run read] at counts
    split at counts
    · cases counts
    · split at counts
      · cases counts
      · obtain ⟨rfl, rfl⟩ := EStateM.Result.ok.inj counts
        omega
  cases q with
  | scalar k => cases begins
  | record typeName fields => cases begins
  | text =>
    obtain ⟨rfl, rfl⟩ := Prod.mk.inj (Option.some.inj begins)
    rw [decode] at h
    obtain ⟨x, u, texts, -⟩ := Source.run_bind.mp h
    obtain ⟨n, u, count, rest⟩ := Source.run_bind.mp texts
    obtain ⟨bytes, u', block, -⟩ := Source.run_bind.mp rest
    have enough := Reader.block_le (Decoder.ofReader_eq_ok.mp block)
    exact counts count (by omega)
  | bulk k =>
    obtain ⟨rfl, rfl⟩ := Prod.mk.inj (Option.some.inj begins)
    rw [decode] at h
    obtain ⟨n, u, count, rest⟩ := Source.run_bind.mp h
    obtain ⟨xs, u', run, -⟩ := Source.run_bind.mp rest
    obtain ⟨bytes, u'', block, -⟩ := Source.run_bind.mp (Decoder.ofReader_eq_ok.mp run)
    have enough := Nat.le_trans (Nat.le_mul_of_pos_right n k.width_pos) (Reader.block_le block)
    exact counts count enough
  | elements element =>
    obtain ⟨rfl, rfl⟩ := Prod.mk.inj (Option.some.inj begins)
    rw [decode] at h
    obtain ⟨n, u, count, rest⟩ := Source.run_bind.mp h
    obtain ⟨items, u', all, -⟩ := Source.run_bind.mp rest
    have enough := times_le (solid element rfl) all
    exact counts count (by omega)

end Plan

end SchemaCodec
