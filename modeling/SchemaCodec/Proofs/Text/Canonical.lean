import SchemaCodec.Proofs.Text.Utf8

/-! # UTF-8 is canonical

No two byte strings are read as one text: whatever is read was the encoding of the text.
-/

namespace SchemaCodec.Utf8

theorem announced_eq_some {lead first last : UInt8} {more : Nat}
    (h : announced lead = some (more, first, last)) :
    (more = 1 ∧ 0xC2 ≤ lead.toNat ∧ lead.toNat ≤ 0xDF ∧ first.toNat = 0x80 ∧ last.toNat = 0xBF) ∨
    (more = 2 ∧ 0xE0 ≤ lead.toNat ∧ lead.toNat ≤ 0xEF ∧
      first.toNat = (if lead.toNat = 0xE0 then 0xA0 else 0x80) ∧
      last.toNat = (if lead.toNat = 0xED then 0x9F else 0xBF)) ∨
    (more = 3 ∧ 0xF0 ≤ lead.toNat ∧ lead.toNat ≤ 0xF4 ∧
      first.toNat = (if lead.toNat = 0xF0 then 0x90 else 0x80) ∧
      last.toNat = (if lead.toNat = 0xF4 then 0x8F else 0xBF)) := by
  by_cases two : lead.toNat ≤ 0xDF
  · by_cases low : 0xC2 ≤ lead.toNat
    · cases (announced_two lead low two).symm.trans h
      exact .inl ⟨rfl, low, two, rfl, rfl⟩
    · have small : lead < 0xC2 := by rw [UInt8.lt_iff_toNat_lt]; simp; omega
      rw [announced, if_pos small] at h
      cases h
  by_cases three : lead.toNat ≤ 0xEF
  · obtain ⟨_, _, known, lower, upper⟩ := announced_three lead (by omega) three
    cases known.symm.trans h
    exact .inr (.inl ⟨rfl, by omega, three, lower, upper⟩)
  by_cases four : lead.toNat ≤ 0xF4
  · obtain ⟨_, _, known, lower, upper⟩ := announced_four lead (by omega) four
    cases known.symm.trans h
    exact .inr (.inr ⟨rfl, by omega, four, lower, upper⟩)
  · have h₁ : ¬ lead < 0xC2 := by rw [UInt8.lt_iff_toNat_lt]; simp; omega
    have h₂ : ¬ lead ≤ 0xDF := by rw [UInt8.le_iff_toNat_le]; simp; omega
    have h₃ : ¬ lead = 0xE0 := by rw [← UInt8.toNat_inj]; simp; omega
    have h₄ : ¬ lead = 0xED := by rw [← UInt8.toNat_inj]; simp; omega
    have h₅ : ¬ lead ≤ 0xEF := by rw [UInt8.le_iff_toNat_le]; simp; omega
    have h₆ : ¬ lead = 0xF0 := by rw [← UInt8.toNat_inj]; simp; omega
    have h₇ : ¬ lead ≤ 0xF3 := by rw [UInt8.le_iff_toNat_le]; simp; omega
    have h₈ : ¬ lead = 0xF4 := by rw [← UInt8.toNat_inj]; simp; omega
    rw [announced, if_neg h₁, if_neg h₂, if_neg h₃, if_neg h₄, if_neg h₅, if_neg h₆, if_neg h₇,
      if_neg h₈] at h
    cases h

theorem ofNat_eq {n : Nat} {b : UInt8} (h : n = b.toNat) : UInt8.ofNat n = b := by
  rw [h, UInt8.ofNat_toNat]

theorem toNat_char {n : Nat} (h : n < 0xD800 ∨ 0xDFFF < n ∧ n < 0x110000) :
    (Char.ofNat n).toNat = n := by
  have valid : n.isValidChar := h
  rw [Char.ofNat, dif_pos valid]
  rfl

theorem not_outside {b first last : UInt8} (h : ¬ (b < first || last < b) = true) :
    first.toNat ≤ b.toNat ∧ b.toNat ≤ last.toNat := by
  simp only [Bool.or_eq_true, decide_eq_true_eq, UInt8.lt_iff_toNat_lt] at h
  omega

theorem toNat_of_isTail {b : UInt8} (h : ¬ (!isTail b) = true) :
    0x80 ≤ b.toNat ∧ b.toNat ≤ 0xBF := by
  simpa [isTail, UInt8.le_iff_toNat_le] using h

section Character

variable {lead b c d : UInt8}

theorem encode_assemble_two (low : 0xC2 ≤ lead.toNat) (high : lead.toNat ≤ 0xDF)
    (hb : 0x80 ≤ b.toNat ∧ b.toNat ≤ 0xBF) :
    String.utf8EncodeChar (assemble (lead.toNat % 32) [b]) = [lead, b] := by
  have value : (assemble (lead.toNat % 32) [b]).toNat = lead.toNat % 32 * 64 + b.toNat % 64 :=
    toNat_char (by simp only [List.foldl_cons, List.foldl_nil]; omega)
  rw [utf8EncodeChar_two (by omega) (by omega), value, ofNat_eq (b := lead) (by omega),
    ofNat_eq (b := b) (by omega)]

theorem encode_assemble_three (low : 0xE0 ≤ lead.toNat) (high : lead.toNat ≤ 0xEF)
    (hb : (if lead.toNat = 0xE0 then 0xA0 else 0x80) ≤ b.toNat ∧
      b.toNat ≤ (if lead.toNat = 0xED then 0x9F else 0xBF))
    (hc : 0x80 ≤ c.toNat ∧ c.toNat ≤ 0xBF) :
    String.utf8EncodeChar (assemble (lead.toNat % 16) [b, c]) = [lead, b, c] := by
  have value : (assemble (lead.toNat % 16) [b, c]).toNat =
      (lead.toNat % 16 * 64 + b.toNat % 64) * 64 + c.toNat % 64 :=
    toNat_char (by simp only [List.foldl_cons, List.foldl_nil]; split at hb <;> split at hb <;> omega)
  rw [utf8EncodeChar_three (by split at hb <;> split at hb <;> omega) (by omega), value,
    ofNat_eq (b := lead) (by omega), ofNat_eq (b := b) (by split at hb <;> split at hb <;> omega),
    ofNat_eq (b := c) (by omega)]

theorem encode_assemble_four (low : 0xF0 ≤ lead.toNat) (high : lead.toNat ≤ 0xF4)
    (hb : (if lead.toNat = 0xF0 then 0x90 else 0x80) ≤ b.toNat ∧
      b.toNat ≤ (if lead.toNat = 0xF4 then 0x8F else 0xBF))
    (hc : 0x80 ≤ c.toNat ∧ c.toNat ≤ 0xBF) (hd : 0x80 ≤ d.toNat ∧ d.toNat ≤ 0xBF) :
    String.utf8EncodeChar (assemble (lead.toNat % 8) [b, c, d]) = [lead, b, c, d] := by
  have value : (assemble (lead.toNat % 8) [b, c, d]).toNat =
      ((lead.toNat % 8 * 64 + b.toNat % 64) * 64 + c.toNat % 64) * 64 + d.toNat % 64 :=
    toNat_char (by simp only [List.foldl_cons, List.foldl_nil]; split at hb <;> split at hb <;> omega)
  rw [utf8EncodeChar_four (by split at hb <;> split at hb <;> omega), value,
    ofNat_eq (b := lead) (by omega), ofNat_eq (b := b) (by split at hb <;> split at hb <;> omega),
    ofNat_eq (b := c) (by omega), ofNat_eq (b := d) (by omega)]

end Character

theorem decodeFrom_cons {start : Nat} {lead : UInt8} {rest : List UInt8} {cs : List Char}
    (h : decodeFrom start (lead :: rest) = .ok cs) :
    ∃ c others next later, lead :: rest = String.utf8EncodeChar c ++ others ∧ cs = c :: later ∧
      decodeFrom next others = .ok later := by
  have mapped {next : Nat} {others : List UInt8} {c : Char}
      (bytes : lead :: rest = String.utf8EncodeChar c ++ others)
      (h : (c :: ·) <$> decodeFrom next others = .ok cs) :
      ∃ c others next later, lead :: rest = String.utf8EncodeChar c ++ others ∧ cs = c :: later ∧
        decodeFrom next others = .ok later := by
    cases read : decodeFrom next others with
    | error fault => rw [read] at h; cases h
    | ok later =>
      rw [read] at h
      exact ⟨c, others, next, later, bytes, (Except.ok.inj h).symm, read⟩
  rw [decodeFrom.eq_def] at h
  dsimp only at h
  split at h
  · next small =>
    have small : lead.toNat < 0x80 := UInt8.lt_iff_toNat_lt.mp small
    have value : (Char.ofNat lead.toNat).toNat = lead.toNat := toNat_char (by omega)
    refine mapped ?_ h
    rw [utf8EncodeChar_one (by omega), value, ofNat_eq rfl]
    rfl
  · split at h
    · cases h
    · cases h
    · next more first last b rest known =>
      have ranges := announced_eq_some known
      split at h
      · cases h
      next inside =>
      have hb := not_outside inside
      split at h
      · next one =>
        subst one
        obtain ⟨-, low, high, hf, hl⟩ | ⟨no, -⟩ | ⟨no, -⟩ := ranges
        · rw [hf, hl] at hb
          refine mapped ?_ h
          rw [encode_assemble_two low high hb]
          rfl
        · cases no
        · cases no
      next notOne =>
      split at h
      · cases h
      next c rest =>
      split at h
      · cases h
      next tail =>
      have hc := toNat_of_isTail tail
      split at h
      · next two =>
        subst two
        obtain ⟨no, -⟩ | ⟨-, low, high, hf, hl⟩ | ⟨no, -⟩ := ranges
        · cases no
        · rw [hf, hl] at hb
          refine mapped ?_ h
          rw [encode_assemble_three low high hb hc]
          rfl
        · cases no
      next notTwo =>
      split at h
      · cases h
      next d rest =>
      split at h
      · cases h
      next tail =>
      have hd := toNat_of_isTail tail
      obtain ⟨rfl, -⟩ | ⟨rfl, -⟩ | ⟨-, low, high, hf, hl⟩ := ranges
      · exact absurd rfl notOne
      · exact absurd rfl notTwo
      · rw [hf, hl] at hb
        refine mapped ?_ h
        rw [encode_assemble_four low high hb hc hd]
        rfl

theorem flatMap_of_decodeFrom {start : Nat} {bytes : List UInt8} {cs : List Char}
    (h : decodeFrom start bytes = .ok cs) : cs.flatMap String.utf8EncodeChar = bytes := by
  induction cs generalizing start bytes with
  | nil =>
    cases bytes with
    | nil => rfl
    | cons lead rest =>
      obtain ⟨c, others, next, later, -, no, -⟩ := decodeFrom_cons h
      cases no
  | cons c cs ih =>
    cases bytes with
    | nil =>
      rw [decodeFrom] at h
      cases h
    | cons lead rest =>
      obtain ⟨c', others, next, later, bytes, same, read⟩ := decodeFrom_cons h
      obtain ⟨rfl, rfl⟩ := List.cons.inj same
      rw [bytes, List.flatMap_cons, ih read]

/-- Only the bytes of a text are read as the text. -/
theorem encode_of_decode {bytes : List UInt8} {s : String} (h : decode bytes = .ok s) :
    encode s = bytes := by
  rw [decode] at h
  cases read : decodeFrom 0 bytes with
  | error fault => rw [read] at h; cases h
  | ok cs =>
    rw [read] at h
    obtain rfl := Except.ok.inj h
    rw [encode, String.toList_ofList]
    exact flatMap_of_decodeFrom read

end SchemaCodec.Utf8
