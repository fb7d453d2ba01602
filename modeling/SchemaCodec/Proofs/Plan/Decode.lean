import SchemaCodec.Plan.Encode
import SchemaCodec.Proofs.Wire.Reading

/-! # What plans read

For each form of plan, the pieces that it takes from a buffer and the values that they stand for.
-/

namespace SchemaCodec

open Source

def IsCount (count limit : Nat) (piece : List UInt8) : Prop :=
  count ≤ limit ∧ count ≤ maxCount ∧ piece = LittleEndian.split countSize count

theorem IsCount.small {count limit : Nat} {piece : List UInt8} (h : IsCount count limit piece)
    {width : Nat} (narrow : width ≤ 8) : count * width < wordBound :=
  calc count * width ≤ maxCount * 8 := Nat.mul_le_mul h.2.1 narrow
    _ < wordBound := by decide

theorem toInt_ofWord {n : Nat} (h : n < 0x100000000) :
    (UInt32.ofNat n).toInt32.toInt =
      if n < 0x80000000 then (n : Int) else (n : Int) - 0x100000000 := by
  rw [Int32.toInt, UInt32.toBitVec_toInt32, BitVec.toInt_eq_toNat_cond]
  simp
  omega

theorem reads_int32_iff {piece : List UInt8} {count : Nat} :
    (∃ raw : Int32, Scalar.int32.Reads piece raw ∧ ¬ raw.toInt < 0 ∧ raw.toInt.toNat = count) ↔
      count ≤ maxCount ∧ piece = LittleEndian.split countSize count := by
  unfold maxCount
  constructor
  · rintro ⟨raw, ⟨length, word⟩, nonneg, rfl⟩
    have small : LittleEndian.join piece < 0x100000000 := by
      have bound := LittleEndian.join_lt piece
      rwa [length] at bound
    have back : LittleEndian.split countSize (LittleEndian.join piece) = piece := by
      have same := LittleEndian.split_join piece
      rwa [length] at same
    obtain rfl := Option.some.inj word
    rw [toInt_ofWord small] at nonneg ⊢
    split at nonneg
    · next low =>
      rw [if_pos low, Int.toNat_natCast]
      exact ⟨by omega, back.symm⟩
    · omega
  · rintro ⟨low, rfl⟩
    have small : count < 0x100000000 := by omega
    refine ⟨(UInt32.ofNat count).toInt32, ⟨LittleEndian.length_split _ _, ?_⟩, ?_, ?_⟩
    · rw [LittleEndian.join_split small]
      rfl
    · rw [toInt_ofWord small, if_pos (by omega)]
      omega
    · rw [toInt_ofWord small, if_pos (by omega), Int.toNat_natCast]

namespace Decoder

theorem accepts_count (counted : Counted) (limit : Nat) :
    Accepts (count counted limit) fun piece n => IsCount n limit piece := by
  refine accepts_position fun offset => ?_
  refine Accepts.congr ((accepts_ofReader (Reader.accepts_scalar .int32)).bind
    (U := fun raw piece n => ¬ raw.toInt < 0 ∧ raw.toInt.toNat = n ∧ n ≤ limit ∧ piece = [])
    fun raw => ?_) ?_
  · split
    · next negative => exact (accepts_throw _).congr fun piece n => by simp [negative]
    · next nonneg =>
      dsimp only
      split
      · next large =>
        refine (accepts_throw _).congr fun piece n => ⟨False.elim, ?_⟩
        rintro ⟨-, rfl, small, -⟩
        omega
      · next small =>
        refine (accepts_pure _).congr fun piece n => ?_
        constructor
        · rintro ⟨rfl, rfl⟩
          exact ⟨nonneg, rfl, Nat.not_lt.mp small, rfl⟩
        · rintro ⟨-, rfl, -, rfl⟩
          exact ⟨rfl, rfl⟩
  · intro piece n
    constructor
    · rintro ⟨front, _, raw, rfl, hraw, nonneg, same, small, rfl⟩
      rw [List.append_nil]
      obtain ⟨low, bytes⟩ := reads_int32_iff.mp ⟨raw, hraw, nonneg, same⟩
      exact ⟨small, low, bytes⟩
    · rintro ⟨small, low, bytes⟩
      obtain ⟨raw, hraw, nonneg, same⟩ := reads_int32_iff.mpr ⟨low, bytes⟩
      exact ⟨piece, [], raw, (List.append_nil _).symm, hraw, nonneg, same, small, rfl⟩

theorem accepts_text (limit : Nat) :
    Accepts (text limit) fun piece s => ∃ front bytes, piece = front ++ bytes ∧
      IsCount bytes.length limit front ∧ Utf8.decode bytes = .ok s := by
  refine Accepts.congr ((accepts_count .string limit).bind fun length =>
    (accepts_ofReader (Reader.accepts_block length 1)).bind
      (U := fun bytes piece s => piece = [] ∧ Utf8.decode bytes = .ok s) fun bytes => ?_) ?_
  · split
    · next s read =>
      exact (accepts_pure s).congr fun piece t => by simp [read, eq_comm]
    · next fault read =>
      exact (accepts_throw _).congr fun piece t => by simp [read]
  · intro piece s
    constructor
    · rintro ⟨front, _, length, rfl, counted, bytes, _, _, rfl, ⟨-, length_eq, rfl⟩, rfl, read⟩
      rw [Nat.mul_one] at length_eq
      subst length_eq
      rw [List.append_nil]
      exact ⟨front, _, rfl, counted, read⟩
    · rintro ⟨front, bytes, rfl, counted, read⟩
      refine ⟨front, bytes, bytes.length, rfl, counted, bytes, [], bytes,
        (List.append_nil _).symm, ⟨?_, (Nat.mul_one _).symm, rfl⟩, rfl, read⟩
      exact counted.small (by decide)

end Decoder

namespace Plan

variable (limits : Limits)

mutual

/-- The value that a piece stands for under a plan. -/
def Reads : Plan → List UInt8 → Value → Prop
  | scalar k, piece, v => ∃ x, v = .scalar k x ∧ k.Reads piece x
  | text, piece, v => ∃ s front bytes, v = .text s ∧ piece = front ++ bytes ∧
      IsCount bytes.length limits.maxText front ∧ Utf8.decode bytes = .ok s
  | bulk k, piece, v => ∃ xs front pieces, v = .array k xs ∧ piece = front ++ pieces.flatten ∧
      IsCount xs.length limits.maxSequence front ∧ List.Forall₂ k.Reads pieces xs
  | elements element, piece, v => ∃ items front pieces, v = .list items ∧
      piece = front ++ pieces.flatten ∧ IsCount items.length limits.maxSequence front ∧
      List.Forall₂ (Reads element) pieces items
  | record typeName fields, piece, v => ∃ values, v = .record typeName (Fields.ofList values) ∧
      ReadsFields fields piece values

def ReadsFields : List (String × Plan) → List UInt8 → List (String × Value) → Prop
  | [], piece, values => piece = [] ∧ values = []
  | (name, plan) :: rest, piece, values => ∃ front back v others, piece = front ++ back ∧
      values = (name, v) :: others ∧ Reads plan front v ∧ ReadsFields rest back others

end

variable {limits}

theorem accepts_decodeFields {fields : List (String × Plan)}
    (h : ∀ p ∈ fields, Accepts (decode limits p.2) (Reads limits p.2)) :
    Accepts (decodeFields limits fields) (ReadsFields limits fields) := by
  induction fields with
  | nil =>
    rw [decodeFields]
    exact (accepts_pure []).congr fun piece values => by rw [ReadsFields]
  | cons field rest ih =>
    obtain ⟨name, plan⟩ := field
    rw [decodeFields]
    refine ((h _ List.mem_cons_self).bind fun v =>
      (ih fun p hp => h p (List.mem_cons_of_mem _ hp)).bind fun vs => accepts_pure _).congr
      fun piece values => ?_
    rw [ReadsFields]
    constructor
    · rintro ⟨front, _, v, rfl, hv, back, _, vs, rfl, hvs, rfl, rfl⟩
      rw [List.append_nil]
      exact ⟨front, back, v, vs, rfl, rfl, hv, hvs⟩
    · rintro ⟨front, back, v, vs, rfl, rfl, hv, hvs⟩
      exact ⟨front, back, v, rfl, hv, back, [], vs, (List.append_nil _).symm, hvs, rfl, rfl⟩

/-- Decoding a buffer takes a piece from the front exactly if the piece stands for the value. -/
theorem accepts_decode (plan : Plan) : Accepts (decode limits plan) (Reads limits plan) := by
  induction plan with
  | scalar k =>
    rw [decode]
    refine ((Decoder.accepts_ofReader (Reader.accepts_scalar k)).bind fun x => accepts_pure _).congr
      fun piece v => ?_
    rw [Reads]
    constructor
    · rintro ⟨front, _, x, rfl, hx, rfl, rfl⟩
      rw [List.append_nil]
      exact ⟨x, rfl, hx⟩
    · rintro ⟨x, rfl, hx⟩
      exact ⟨piece, [], x, (List.append_nil _).symm, hx, rfl, rfl⟩
  | text =>
    rw [decode]
    refine ((Decoder.accepts_text limits.maxText).bind fun s => accepts_pure _).congr
      fun piece v => ?_
    rw [Reads]
    constructor
    · rintro ⟨_, _, s, rfl, ⟨front, bytes, rfl, counted, read⟩, rfl, rfl⟩
      rw [List.append_nil]
      exact ⟨s, front, bytes, rfl, rfl, counted, read⟩
    · rintro ⟨s, front, bytes, rfl, rfl, counted, read⟩
      exact ⟨_, [], s, (List.append_nil _).symm, ⟨front, bytes, rfl, counted, read⟩, rfl, rfl⟩
  | bulk k =>
    rw [decode]
    refine ((Decoder.accepts_count .sequence limits.maxSequence).bind fun count =>
      (Decoder.accepts_ofReader (Reader.accepts_array k count)).bind fun xs =>
        accepts_pure _).congr fun piece v => ?_
    rw [Reads]
    constructor
    · rintro ⟨front, _, _, rfl, counted, _, _, xs, rfl, ⟨-, pieces, rfl, rfl, all⟩, rfl, rfl⟩
      rw [List.append_nil]
      exact ⟨xs, front, pieces, rfl, rfl, counted, all⟩
    · rintro ⟨xs, front, pieces, rfl, rfl, counted, all⟩
      refine ⟨front, _, xs.length, rfl, counted, _, [], xs, (List.append_nil _).symm,
        ⟨counted.small k.width_le, pieces, rfl, rfl, all⟩, rfl, rfl⟩
  | elements element ih =>
    rw [decode]
    refine ((Decoder.accepts_count .sequence limits.maxSequence).bind fun count =>
      (Decoder.accepts_times ih count).bind fun items => accepts_pure _).congr fun piece v => ?_
    rw [Reads]
    constructor
    · rintro ⟨front, _, _, rfl, counted, _, _, items, rfl, ⟨rfl, pieces, all, rfl⟩, rfl, rfl⟩
      rw [List.append_nil]
      exact ⟨items, front, pieces, rfl, rfl, counted, all⟩
    · rintro ⟨items, front, pieces, rfl, rfl, counted, all⟩
      exact ⟨front, _, items.length, rfl, counted, _, [], items, (List.append_nil _).symm,
        ⟨rfl, pieces, all, rfl⟩, rfl, rfl⟩
  | record typeName fields ih =>
    rw [decode]
    refine ((accepts_decodeFields ih).bind fun values => accepts_pure _).congr fun piece v => ?_
    rw [Reads]
    constructor
    · rintro ⟨front, _, values, rfl, all, rfl, rfl⟩
      rw [List.append_nil]
      exact ⟨values, rfl, all⟩
    · rintro ⟨values, rfl, all⟩
      exact ⟨piece, [], values, (List.append_nil _).symm, all, rfl, rfl⟩

/-! ## Pieces read in two ways -/

section

variable {k : Scalar} {p q : Plan} {v : Value} {piece : List UInt8}
  {fields fields' : List (String × Plan)}

theorem reads_scalars {ys : List k.Carrier} {pieces : List (List UInt8)} :
    List.Forall₂ (Reads limits (.scalar k)) pieces (Value.scalars k ys) ↔
      List.Forall₂ k.Reads pieces ys := by
  rw [Value.scalars, List.forall₂_map_right_iff]
  have same : ∀ piece (y : k.Carrier),
      Reads limits (.scalar k) piece (.scalar k y) ↔ k.Reads piece y := by
    intro piece y
    rw [Reads]
    constructor
    · rintro ⟨y', same, hy⟩
      obtain ⟨⟩ := same
      exact hy
    · intro hy
      exact ⟨y, rfl, hy⟩
  simp only [same]

/-- A run is read in one piece exactly if the list of its scalars is read one by one. -/
theorem reads_run {ys : List k.Carrier} :
    Reads limits (.bulk k) piece (.array k ys) ↔
      Reads limits (.elements (.scalar k)) piece (.list (Value.scalars k ys)) := by
  have count : (Value.scalars k ys).length = ys.length := List.length_map _
  rw [Reads, Reads]
  constructor
  · rintro ⟨_, front, pieces, ⟨⟩, rfl, counted, all⟩
    exact ⟨_, front, pieces, rfl, rfl, count.symm ▸ counted, reads_scalars.mpr all⟩
  · rintro ⟨_, front, pieces, ⟨⟩, rfl, counted, all⟩
    exact ⟨ys, front, pieces, rfl, rfl, count ▸ counted, reads_scalars.mp all⟩

theorem reads_bulk_iff : Reads limits (.bulk k) piece v ↔
    ∃ ys, v = .array k ys ∧
      Reads limits (.elements (.scalar k)) piece (.list (Value.scalars k ys)) := by
  constructor
  · intro h
    obtain ⟨ys, rfl⟩ : ∃ ys, v = .array k ys := by
      rw [Reads] at h
      obtain ⟨ys, front, pieces, rfl, -⟩ := h
      exact ⟨ys, rfl⟩
    exact ⟨ys, rfl, reads_run.mp h⟩
  · rintro ⟨ys, rfl, h⟩
    exact reads_run.mpr h

theorem reads_elements_scalar_iff : Reads limits (.elements (.scalar k)) piece v ↔
    ∃ ys, v = .list (Value.scalars k ys) ∧ Reads limits (.bulk k) piece (.array k ys) := by
  constructor
  · intro h
    obtain ⟨ys, rfl⟩ : ∃ ys, v = .list (Value.scalars k ys) := by
      rw [Reads] at h
      obtain ⟨items, front, pieces, rfl, -, -, all⟩ := h
      induction all with
      | nil => exact ⟨[], rfl⟩
      | cons head _ ih =>
        obtain ⟨ys, same⟩ := ih
        obtain rfl := Value.list.inj same
        rw [Reads] at head
        obtain ⟨y, rfl, -⟩ := head
        exact ⟨y :: ys, rfl⟩
    exact ⟨ys, rfl, reads_run.mpr h⟩
  · rintro ⟨ys, rfl, h⟩
    exact reads_run.mp h

theorem reads_elements_agree {S : Value → Value → Prop}
    (each : ∀ piece v, Reads limits p piece v → ∃ w, Reads limits q piece w ∧ S v w)
    (h : Reads limits (.elements p) piece v) :
    ∃ items items', v = .list items ∧ Reads limits (.elements q) piece (.list items') ∧
      List.Forall₂ S items items' := by
  rw [Reads] at h
  obtain ⟨items, front, pieces, rfl, rfl, count, all⟩ := h
  obtain ⟨items', all', same⟩ : ∃ items', List.Forall₂ (Reads limits q) pieces items' ∧
      List.Forall₂ S items items' := by
    clear count
    induction all with
    | nil => exact ⟨[], .nil, .nil⟩
    | cons head _ rest =>
      obtain ⟨items', all', same⟩ := rest
      obtain ⟨w, head', same'⟩ := each _ _ head
      exact ⟨w :: items', .cons head' all', .cons same' same⟩
  refine ⟨items, items', rfl, ?_, same⟩
  rw [Reads]
  exact ⟨items', front, pieces, rfl, rfl, same.length_eq ▸ count, all'⟩

theorem readsFields_agree {S : String → Value → Value → Prop} {values : List (String × Value)}
    (all : List.Forall₂ (fun field field' => field.1 = field'.1 ∧ ∀ piece v,
      Reads limits field.2 piece v → ∃ w, Reads limits field'.2 piece w ∧ S field.1 v w)
      fields fields') (h : ReadsFields limits fields piece values) :
    values.map Prod.fst = fields.map Prod.fst ∧ ∃ values',
      ReadsFields limits fields' piece values' ∧
        List.Forall₂ (fun entry entry' => entry.1 = entry'.1 ∧ S entry.1 entry.2 entry'.2)
          values values' := by
  induction all generalizing piece values with
  | nil =>
    rw [ReadsFields] at h
    obtain ⟨rfl, rfl⟩ := h
    refine ⟨rfl, [], ?_, .nil⟩
    rw [ReadsFields]
    exact ⟨rfl, rfl⟩
  | @cons field field' _ _ head _ ih =>
    obtain ⟨n, p⟩ := field
    obtain ⟨n', q⟩ := field'
    obtain ⟨rfl, each⟩ := head
    rw [ReadsFields] at h
    obtain ⟨front, back, v, others, rfl, rfl, first, rest⟩ := h
    obtain ⟨w, first', same⟩ := each front v first
    obtain ⟨names, others', rest', tail⟩ := ih rest
    refine ⟨congrArg (n :: ·) names, (n, w) :: others', ?_, .cons ⟨rfl, same⟩ tail⟩
    rw [ReadsFields]
    exact ⟨front, back, w, others', rfl, rfl, first', rest'⟩

end

end Plan

end SchemaCodec
