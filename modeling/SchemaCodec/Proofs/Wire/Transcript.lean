import SchemaCodec.Proofs.Wire.Reading
import SchemaCodec.Wire.Sink

/-! # Transcripts

Typed writes in any order and number, and the typed reads that ask for the same items. Nothing on
the wire says what an item is or where it ends: the reads have to match the writes. Where they do,
every item comes back as it was written, to the last bit of a float.
-/

namespace SchemaCodec

/-- What one call writes. -/
inductive Item where
  | scalar (k : Scalar) (x : k.Carrier)
  | run (k : Scalar) (xs : List k.Carrier)
  | raw (bytes : List UInt8)

/-- What one call reads: the kind of the item, and its length where it has one. -/
inductive Request where
  | scalar (k : Scalar)
  | run (k : Scalar) (count : Nat)
  | raw (count : Nat)

namespace Item

def request : Item → Request
  | scalar k _ => .scalar k
  | run k xs => .run k xs.length
  | raw bytes => .raw bytes.length

def width : Item → Nat
  | scalar k _ => k.width
  | run k xs => xs.length * k.width
  | raw bytes => bytes.length

def bytes : Item → List UInt8
  | scalar k x => k.toBytes x
  | run k xs => k.runBytes xs
  | raw bytes => bytes

def write : Item → Writer Unit
  | scalar k x => Writer.scalar k x
  | run k xs => Writer.array k xs
  | raw bytes => Sink.write bytes

theorem write_eq (item : Item) : item.write = Sink.write item.bytes := by
  cases item <;> rfl

@[simp] theorem length_bytes (item : Item) : item.bytes.length = item.width := by
  cases item with
  | scalar k x => exact k.length_toBytes x
  | run k xs => simp [bytes, width, Scalar.runBytes, List.length_flatMap, Scalar.length_toBytes]
  | raw bytes => rfl

def total : List Item → Nat
  | [] => 0
  | item :: items => item.width + total items

def writeAll : List Item → Writer Unit
  | [] => pure ()
  | item :: items => do
    item.write
    writeAll items

end Item

namespace Request

def read : Request → Reader Item
  | scalar k => do
    let x ← Reader.scalar k
    pure (.scalar k x)
  | run k count => do
    let xs ← Reader.array k count
    pure (.run k xs)
  | raw count => do
    let bytes ← Source.read count
    pure (.raw bytes)

def readAll : List Request → Reader (List Item)
  | [] => pure []
  | request :: requests => do
    let item ← request.read
    let items ← readAll requests
    pure (item :: items)

end Request

open Source

theorem Source.Accepts.andPure {ε α β : Type} {step : EStateM ε Source α}
    {T : List UInt8 → α → Prop} (h : Accepts step T) {piece : List UInt8} {x : α} (hx : T piece x)
    (f : α → β) (position : Nat) (rest : List UInt8) :
    (step >>= fun y => pure (f y)) (.buffer position (piece ++ rest)) =
      .ok (f x) (.buffer (position + piece.length) rest) :=
  run_bind.mpr ⟨x, _, h.run hx position rest, rfl⟩

namespace Item

/-- Step: the read that matches an item takes its bytes and yields the item. A run is read only if
its bytes can be counted in a word. -/
theorem read_bytes {item : Item} (small : item.width < wordBound) (position : Nat)
    (rest : List UInt8) :
    item.request.read (.buffer position (item.bytes ++ rest)) =
      .ok item (.buffer (position + item.width) rest) := by
  rw [← item.length_bytes]
  cases item with
  | scalar k x => exact (Reader.accepts_scalar k).andPure (k.reads_toBytes x) _ position rest
  | run k xs =>
    refine (Reader.accepts_array k xs.length).andPure ⟨small, xs.map k.toBytes, ?_, rfl,
      k.reads_run xs⟩ _ position rest
    simp [bytes, Scalar.runBytes, List.flatMap]
  | raw bytes => exact (accepts_read bytes.length).andPure ⟨rfl, rfl⟩ _ position rest

/-- Run of the reads: behind each item the next one is found. -/
theorem readAll_bytes {items : List Item} (small : ∀ item ∈ items, item.width < wordBound)
    (position : Nat) (rest : List UInt8) :
    Request.readAll (items.map request) (.buffer position (items.flatMap bytes ++ rest)) =
      .ok items (.buffer (position + total items) rest) := by
  induction items generalizing position with
  | nil => rfl
  | cons item items ih =>
    obtain ⟨first, others⟩ := List.forall_mem_cons.mp small
    have head := read_bytes first position (items.flatMap bytes ++ rest)
    have tail := ih others (position + item.width)
    simp only [List.map_cons, List.flatMap_cons, List.append_assoc, Request.readAll, total]
    rw [← Nat.add_assoc]
    exact run_bind.mpr ⟨item, _, head, run_bind.mpr ⟨items, _, tail, rfl⟩⟩

/-- Run of the writes: they leave the bytes of all items, and the writer has counted them. -/
theorem writeAll_ok {items : List Item} {s t : Sink} (h : writeAll items s = .ok () t) :
    t.written = s.written ++ items.flatMap bytes ∧ t.position = s.position + total items := by
  induction items generalizing s with
  | nil =>
    obtain ⟨_, rfl⟩ := EStateM.Result.ok.inj h
    simp [total]
  | cons item items ih =>
    replace h : EStateM.bind item.write (fun _ => writeAll items) s = .ok () t := h
    unfold EStateM.bind at h
    split at h
    · next m first =>
      rw [write_eq] at first
      obtain ⟨written, position, -⟩ := Sink.write_ok first
      obtain ⟨written', position'⟩ := ih h
      simp [written, written', position, position', total, Nat.add_assoc]
    · cases h

/-- Typed writes read back. Where items have been written to an empty sink, be it a window over a
buffer or memory that grows, the matching reads of the written bytes yield the same items in the
same order, whatever follows the bytes. The reader ends where the writer did, at the sum of the
widths. An item lies in memory as a whole, so a word counts its bytes. -/
theorem written_reads_back {items : List Item} {s t : Sink} (fresh : s.written = [])
    (start : s.position = 0) (small : ∀ item ∈ items, item.width < wordBound)
    (h : writeAll items s = .ok () t) :
    t.position = total items ∧ ∀ rest,
      Request.readAll (items.map request) (.ofBytes (t.written ++ rest)) =
        .ok items (.buffer t.position rest) := by
  obtain ⟨written, position⟩ := writeAll_ok h
  rw [fresh, List.nil_append] at written
  rw [start, Nat.zero_add] at position
  refine ⟨position, fun rest => ?_⟩
  have read := readAll_bytes small 0 rest
  rwa [Nat.zero_add, ← written, ← position] at read

/-- A character, a signalling NaN, two signed scalars and raw bytes, over a buffer with one byte to
spare. -/
theorem written_reads_back_nan :
    let items : List Item := [.scalar .char (Char.ofNat 0x1F600),
      .scalar .float32 ⟨0x7FA00001⟩, .run .int16 [-2, 258], .run .boolean [], .raw [7, 0]]
    ∃ t, writeAll items (.ofBuffer (List.replicate 15 9)) = .ok () t ∧ t.position = 14 ∧
      Request.readAll (items.map request) (.ofBytes (t.written ++ [9])) =
        .ok items (.buffer 14 [9]) := by
  intro items
  have small : ∀ item ∈ items, item.width < wordBound := by decide
  obtain ⟨position, back⟩ :=
    written_reads_back (s := .ofBuffer (List.replicate 15 9)) rfl rfl small rfl
  exact ⟨_, rfl, position, back [9]⟩

end Item

end SchemaCodec
