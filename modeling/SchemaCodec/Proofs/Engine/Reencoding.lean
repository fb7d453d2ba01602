import SchemaCodec.Proofs.Engine.ExactSize
import SchemaCodec.Proofs.Plan.Decode
import SchemaCodec.Proofs.Plan.Nodes
import SchemaCodec.Proofs.Text.Canonical
import SchemaCodec.Proofs.Value.Fields

/-! # Writing back what was read

Every reader but that of Booleans takes one piece for each value. So what is read, also from bytes
that nobody encoded, is written back to the bytes that it was read from, except that any byte that
was read as true is written as one.
-/

namespace SchemaCodec

/-- The byte that is written for what a byte was read as; the flag tells whether it was read as a
Boolean. -/
def settleByte (boolean : Bool) (b : UInt8) : UInt8 := if boolean && 1 < b then 1 else b

/-- The bytes that are written for what the bytes were read as. -/
def settle (flags : List Bool) (bytes : List UInt8) : List UInt8 :=
  List.zipWith settleByte flags bytes

example : settle [true, true, false] [7, 0, 7] = [1, 0, 7] := by decide

theorem settle_append {flags others : List Bool} {front back : List UInt8}
    (h : flags.length = front.length) :
    settle (flags ++ others) (front ++ back) = settle flags front ++ settle others back :=
  List.zipWith_append h

theorem settle_false {n : Nat} {bytes : List UInt8} (h : bytes.length = n) :
    settle (List.replicate n false) bytes = bytes := by
  subst h
  induction bytes with
  | nil => rfl
  | cons b bs ih =>
    rw [List.length_cons, List.replicate_succ, settle, List.zipWith_cons_cons]
    exact congrArg (b :: ·) ih

namespace Scalar

def booleans (k : Scalar) : List Bool := List.replicate k.width (k = .boolean)

theorem length_booleans (k : Scalar) : k.booleans.length = k.width := List.length_replicate

theorem toWord_of_ofWord? {k : Scalar} {n : Nat} {x : k.Carrier} (h : k.ofWord? n = some x)
    (small : n < LittleEndian.capacity k.width) (other : k ≠ .boolean) : k.toWord x = n := by
  cases k
  case boolean => exact absurd rfl other
  case char =>
    rw [ofWord?] at h
    split at h
    · next valid =>
      obtain rfl := Option.some.inj h
      exact Utf8.toNat_char valid
    · cases h
  all_goals
    obtain rfl := Option.some.inj h
    have fits := Nat.mod_eq_of_lt small
    simpa [toWord, LittleEndian.capacity, width] using fits

theorem toBytes_boolean (b : UInt8) :
    toBytes .boolean (LittleEndian.join [b] != 0) = [settleByte true b] := by
  rw [show LittleEndian.join [b] = b.toNat from Nat.add_zero _, settleByte, Bool.true_and]
  by_cases zero : b.toNat = 0
  · obtain rfl : b = 0 := UInt8.toNat_inj.mp zero
    decide
  · rw [bne_iff_ne.mpr zero]
    by_cases more : 1 < b
    · rw [decide_eq_true more]
      rfl
    · rw [UInt8.lt_iff_toNat_lt, UInt8.toNat_one] at more
      obtain rfl : b = 1 := UInt8.toNat_inj.mp (by rw [UInt8.toNat_one]; omega)
      decide

theorem toBytes_of_reads {k : Scalar} {piece : List UInt8} {x : k.Carrier} (h : k.Reads piece x) :
    k.toBytes x = settle k.booleans piece := by
  obtain ⟨length, word⟩ := h
  by_cases other : k = .boolean
  · subst other
    obtain ⟨b, rfl⟩ := List.length_eq_one_iff.mp length
    obtain rfl := Option.some.inj word
    exact toBytes_boolean b
  · have small := LittleEndian.join_lt piece
    rw [length] at small
    have back := LittleEndian.split_join piece
    rw [length] at back
    rw [toBytes, toWord_of_ofWord? word small other, back, booleans, decide_eq_false other,
      settle_false length]

def runBooleans (k : Scalar) (count : Nat) : List Bool :=
  (List.replicate count k.booleans).flatten

theorem runBytes_of_reads {k : Scalar} {pieces : List (List UInt8)} {xs : List k.Carrier}
    (h : List.Forall₂ k.Reads pieces xs) :
    k.runBytes xs = settle (k.runBooleans xs.length) pieces.flatten ∧
      (k.runBooleans xs.length).length = pieces.flatten.length := by
  induction h with
  | nil => exact ⟨rfl, rfl⟩
  | @cons piece x pieces xs head _ ih =>
    obtain ⟨bytes, length⟩ := ih
    have width : k.booleans.length = piece.length := k.length_booleans.trans head.1.symm
    rw [runBooleans] at bytes length ⊢
    rw [List.length_cons, List.replicate_succ, List.flatten_cons, List.flatten_cons]
    constructor
    · rw [settle_append width, ← bytes, ← toBytes_of_reads head, runBytes, List.flatMap_cons]
      rfl
    · rw [List.length_append, List.length_append, width, length]

end Scalar

namespace Plan

def countBooleans : List Bool := List.replicate countSize false

def textBooleans (s : String) : List Bool :=
  countBooleans ++ List.replicate (Utf8.encode s).length false

mutual

/-- Tells for every byte that a value is read from whether it is read as a Boolean. -/
def booleans : Plan → Value → List Bool
  | scalar k, _ => k.booleans
  | text, .text s => textBooleans s
  | text, _ => []
  | bulk k, v => countBooleans ++ k.runBooleans (v.length?.getD 0)
  | elements element, v => countBooleans ++ (v.elements?.getD []).flatMap (booleans element)
  | record _ fields, .record _ values => fieldBooleans fields values
  | record _ _, _ => []

def fieldBooleans : List (String × Plan) → List (String × Value) → List Bool
  | [], _ => []
  | (name, plan) :: rest, values =>
    match Fields.get? name values with
    | some v => booleans plan v ++ fieldBooleans rest values
    | none => fieldBooleans rest values

end

example : booleans (.bulk .boolean) (.array .boolean [true]) = [false, false, false, false, true] := by
  decide

/-- The plan writes a value that was read from a piece to the bytes to which the piece is settled. -/
def Restores (plan : Plan) (piece : List UInt8) (v : Value) : Prop :=
  (emit plan v).Yields (settle (booleans plan v) piece) ∧
    (booleans plan v).length = piece.length

variable {limits : Limits} {plan : Plan} {v : Value} {piece : List UInt8}

theorem settle_count {limit count : Nat} {front : List UInt8} (h : IsCount count limit front)
    (flags : List Bool) (back : List UInt8) :
    settle (countBooleans ++ flags) (front ++ back) =
      LittleEndian.split countSize count ++ settle flags back := by
  obtain ⟨-, -, rfl⟩ := h
  have length := LittleEndian.length_split countSize count
  rw [countBooleans, settle_append (List.length_replicate.trans length.symm), settle_false length]

theorem length_count {limit count : Nat} {front : List UInt8} (h : IsCount count limit front) :
    countBooleans.length = front.length := by
  obtain ⟨-, -, rfl⟩ := h
  exact List.length_replicate.trans (LittleEndian.length_split countSize count).symm

theorem restores_items {element : Plan} {pieces : List (List UInt8)} {items : List Value}
    (ih : ∀ piece v, Reads limits element piece v → Restores element piece v)
    (all : List.Forall₂ (Reads limits element) pieces items) :
    (Emission.each (emit element) items).Yields
        (settle (items.flatMap (booleans element)) pieces.flatten) ∧
      (items.flatMap (booleans element)).length = pieces.flatten.length := by
  induction all with
  | nil => exact ⟨Emission.yields_empty.mpr rfl, rfl⟩
  | cons head _ rest =>
    obtain ⟨yields, length⟩ := ih _ _ head
    rw [List.flatMap_cons, List.flatten_cons, List.length_append, List.length_append, length, rest.2,
      settle_append length]
    exact ⟨Emission.yields_append.mpr ⟨_, _, yields, rest.1, rfl⟩, rfl⟩

theorem names_of_reads {fields : List (String × Plan)} {values : List (String × Value)}
    (h : ReadsFields limits fields piece values) :
    values.map Prod.fst = fields.map Prod.fst := by
  induction fields generalizing piece values with
  | nil =>
    rw [ReadsFields] at h
    obtain ⟨-, rfl⟩ := h
    rfl
  | cons field rest ih =>
    obtain ⟨name, plan⟩ := field
    rw [ReadsFields] at h
    obtain ⟨_, _, _, others, -, rfl, -, tail⟩ := h
    rw [List.map_cons, List.map_cons, ih tail]

theorem restores_fields {typeName : String} {fields : List (String × Plan)}
    {values found : List (String × Value)}
    (ih : ∀ p ∈ fields, ∀ piece v, Reads limits p.2 piece v → Restores p.2 piece v)
    (get : ∀ p ∈ values, Fields.get? p.1 found = some p.2)
    (h : ReadsFields limits fields piece values) :
    (emitFields typeName fields found).Yields (settle (fieldBooleans fields found) piece) ∧
      (fieldBooleans fields found).length = piece.length := by
  induction fields generalizing piece values with
  | nil =>
    rw [ReadsFields] at h
    obtain ⟨rfl, -⟩ := h
    rw [emitFields, fieldBooleans]
    exact ⟨Emission.yields_empty.mpr rfl, rfl⟩
  | cons field rest ihr =>
    obtain ⟨name, plan⟩ := field
    rw [ReadsFields] at h
    obtain ⟨front, back, v, others, rfl, rfl, head, tail⟩ := h
    obtain ⟨yields, length⟩ := ih _ List.mem_cons_self front v head
    obtain ⟨yields', length'⟩ := ihr (fun p hp => ih p (List.mem_cons_of_mem _ hp))
      (fun p hp => get p (List.mem_cons_of_mem _ hp)) tail
    have same : Fields.get? name found = some v := get _ List.mem_cons_self
    rw [emitFields, fieldBooleans, same]
    dsimp only
    rw [List.length_append, List.length_append, length, length', settle_append length]
    exact ⟨Emission.yields_append.mpr ⟨_, _, yields, yields', rfl⟩, rfl⟩

/-- What a plan reads it writes back, if the members of each record have distinct names. -/
theorem restores (distinct : CompiledFrom Node.Distinct plan) (h : Reads limits plan piece v) :
    Restores plan piece v := by
  induction plan generalizing v piece with
  | scalar k =>
    rw [Reads] at h
    obtain ⟨x, rfl, read⟩ := h
    rw [Restores, booleans, k.length_booleans, read.1, ← Scalar.toBytes_of_reads read]
    exact ⟨yields_scalar.mpr ⟨x, rfl, rfl⟩, rfl⟩
  | text =>
    rw [Reads] at h
    obtain ⟨s, front, bytes, rfl, rfl, counted, read⟩ := h
    obtain rfl := Utf8.encode_of_decode read
    rw [Restores, booleans, textBooleans, settle_count counted, settle_false rfl,
      List.length_append, List.length_append, length_count counted, List.length_replicate]
    exact ⟨yields_text.mpr ⟨s, rfl, counted.2.1, rfl⟩, rfl⟩
  | bulk k =>
    rw [Reads] at h
    obtain ⟨xs, front, pieces, rfl, rfl, counted, all⟩ := h
    obtain ⟨bytes, length⟩ := Scalar.runBytes_of_reads all
    rw [Restores, booleans]
    dsimp only [Value.length?, Option.getD]
    rw [settle_count counted, ← bytes, List.length_append, List.length_append, length,
      length_count counted]
    exact ⟨yields_bulk.mpr ⟨xs, .inl rfl, counted.2.1, rfl⟩, rfl⟩
  | elements element ih =>
    cases distinct with
    | elements inner =>
      rw [Reads] at h
      obtain ⟨items, front, pieces, rfl, rfl, counted, all⟩ := h
      obtain ⟨yields, length⟩ := restores_items (fun _ _ => ih inner) all
      rw [Restores, booleans, emit]
      dsimp only [Value.elements?, Option.getD]
      rw [settle_count counted, List.length_append, List.length_append, length,
        length_count counted]
      exact ⟨Emission.yields_append.mpr
        ⟨_, _, yields_emitCount.mpr ⟨counted.2.1, rfl⟩, yields, rfl⟩, rfl⟩
  | record typeName fields ih =>
    cases distinct with
    | record apart named inner =>
      rw [Reads] at h
      obtain ⟨values, rfl, read⟩ := h
      have unique : (values.map Prod.fst).Nodup := by
        rw [names_of_reads read]
        unfold Node.Distinct at apart
        rw [names_eq named] at apart
        exact List.Pairwise.of_map some (fun _ _ apart same => apart (congrArg some same)) apart
      rw [Restores, booleans, emit]
      exact restores_fields (fun p hp _ _ => ih p hp (inner p hp))
        (fun p hp => Fields.get?_ofList_of_mem unique hp) read

end Plan

namespace Codec

/-- Writing back undoes reading. A coding that was compiled from nodes whose children have distinct
names finds, for every value that it reads, the number of bytes that it took as the exact size, and
it writes the value to the bytes that it took, but for those that were read as Booleans, of which
any above one becomes one. -/
theorem encode_undoes_decode {c : Codec} (distinct : c.plan.CompiledFrom Node.Distinct)
    {input : List UInt8} {v : Value} {source : Source}
    (read : c.decode (.ofBytes input) = .ok v source) :
    c.exactSize v = .ok source.position ∧
    (c.plan.booleans v).length = source.position ∧
    c.Writes v (settle (c.plan.booleans v) (input.take source.position)) := by
  obtain ⟨piece, rest, rfl, rfl, stands⟩ := (Plan.accepts_decode c.plan 0 input v source).mp read
  obtain ⟨yields, length⟩ := Plan.restores distinct stands
  have written : c.Writes v (settle (c.plan.booleans v) piece) := writes_iff.mpr yields
  have size := exactSize_of_writes written
  rw [settle, List.length_zipWith, length, Nat.min_self] at size
  rw [Source.position, Nat.zero_add, List.take_left]
  exact ⟨size, length, written⟩

/-- Two Booleans and a text are read from eleven bytes; of these the seven, which was read as true,
is written as one. -/
theorem encode_undoes_decode_booleans : ∃ ops c v source,
    (Engine.after ops (.fresh ⟨fun _ => ⟨[], true, .declared⟩, 0⟩ .standard)).compiled.get? "P" =
      some c ∧
    c.decode (.ofBytes [2, 0, 0, 0, 7, 0, 1, 0, 0, 0, 0x61, 9]) = .ok v source ∧
    source.position = 11 ∧ c.Writes v [2, 0, 0, 0, 1, 0, 1, 0, 0, 0, 0x61] := by
  let ops : List Engine.Operation :=
    [.codecOfSchema ⟨"P", 0, [.mk none "P" [.member "flags" "Boolean[]", .member "name" "String"]]⟩]
  have lists : ∀ op ∈ ops, op.Lists Node.Distinct := by
    rintro op hop
    obtain rfl := List.mem_singleton.mp hop
    rintro node mem
    obtain rfl := List.mem_singleton.mp mem
    unfold Node.Distinct
    decide
  have planned : (Engine.after ops (.fresh ⟨fun _ => ⟨[], true, .declared⟩, 0⟩ .standard)).plan?
      "P" = some (.record "P" [("flags", .bulk .boolean), ("name", .text)]) := by decide +kernel
  obtain ⟨typeName, held⟩ := Engine.Reachable.exists_codec ⟨ops, rfl⟩ planned
  have distinct : Plan.CompiledFrom Node.Distinct
      (.record "P" [("flags", .bulk .boolean), ("name", .text)]) :=
    ((Engine.sound_after (fun _ => Node.Ordered.distinct) _ lists).codec "P" _ held).compiledFrom
  have decoded : Codec.decode ⟨typeName, .record "P" [("flags", .bulk .boolean), ("name", .text)],
      .standard⟩ (.ofBytes [2, 0, 0, 0, 7, 0, 1, 0, 0, 0, 0x61, 9]) =
        .ok (.record "P" [("flags", .array .boolean [true, false]), ("name", .text "a")])
          (.buffer 11 [9]) := by
    rfl
  obtain ⟨-, -, written⟩ := encode_undoes_decode distinct decoded
  exact ⟨ops, _, _, _, held, decoded, rfl, written⟩

end Codec

end SchemaCodec
