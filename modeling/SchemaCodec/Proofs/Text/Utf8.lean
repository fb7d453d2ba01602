import SchemaCodec.Text.Utf8

/-! # Reading text back

The bytes of a character are read back as the character, whatever follows them, so a text survives
its way through UTF-8.
-/

namespace SchemaCodec.Utf8

theorem toNat_ofNat {n : Nat} (h : n < 256) : (UInt8.ofNat n).toNat = n := by
  rw [UInt8.toNat_ofNat', Nat.mod_eq_of_lt h]

section Announced

variable (lead : UInt8)

theorem announced_two (low : 0xC2 ≤ lead.toNat) (high : lead.toNat ≤ 0xDF) :
    announced lead = some (1, 0x80, 0xBF) := by
  have h₁ : ¬ lead < 0xC2 := by rw [UInt8.lt_iff_toNat_lt]; simpa using low
  have h₂ : lead ≤ 0xDF := by rw [UInt8.le_iff_toNat_le]; simpa using high
  rw [announced, if_neg h₁, if_pos h₂]

theorem announced_three (low : 0xE0 ≤ lead.toNat) (high : lead.toNat ≤ 0xEF) :
    ∃ first last, announced lead = some (2, first, last) ∧
      first.toNat = (if lead.toNat = 0xE0 then 0xA0 else 0x80) ∧
      last.toNat = (if lead.toNat = 0xED then 0x9F else 0xBF) := by
  have h₁ : ¬ lead < 0xC2 := by rw [UInt8.lt_iff_toNat_lt]; simp; omega
  have h₂ : ¬ lead ≤ 0xDF := by rw [UInt8.le_iff_toNat_le]; simp; omega
  have h₃ : lead ≤ 0xEF := by rw [UInt8.le_iff_toNat_le]; simpa using high
  have e₀ : lead = 0xE0 ↔ lead.toNat = 0xE0 := UInt8.toNat_inj.symm
  have e₁ : lead = 0xED ↔ lead.toNat = 0xED := UInt8.toNat_inj.symm
  rw [announced, if_neg h₁, if_neg h₂, if_pos h₃]
  by_cases c₀ : lead.toNat = 0xE0
  · exact ⟨0xA0, 0xBF, if_pos (e₀.mpr c₀), by simp [c₀], by simp [c₀]⟩
  · rw [if_neg (mt e₀.mp c₀)]
    by_cases c₁ : lead.toNat = 0xED
    · exact ⟨0x80, 0x9F, if_pos (e₁.mpr c₁), by simp [c₁], by simp [c₁]⟩
    · exact ⟨0x80, 0xBF, if_neg (mt e₁.mp c₁), by simp [c₀], by simp [c₁]⟩

theorem announced_four (low : 0xF0 ≤ lead.toNat) (high : lead.toNat ≤ 0xF4) :
    ∃ first last, announced lead = some (3, first, last) ∧
      first.toNat = (if lead.toNat = 0xF0 then 0x90 else 0x80) ∧
      last.toNat = (if lead.toNat = 0xF4 then 0x8F else 0xBF) := by
  have h₁ : ¬ lead < 0xC2 := by rw [UInt8.lt_iff_toNat_lt]; simp; omega
  have h₂ : ¬ lead ≤ 0xDF := by rw [UInt8.le_iff_toNat_le]; simp; omega
  have h₃ : ¬ lead = 0xE0 := by rw [← UInt8.toNat_inj]; simp; omega
  have h₄ : ¬ lead = 0xED := by rw [← UInt8.toNat_inj]; simp; omega
  have h₅ : ¬ lead ≤ 0xEF := by rw [UInt8.le_iff_toNat_le]; simp; omega
  have e₀ : lead = 0xF0 ↔ lead.toNat = 0xF0 := UInt8.toNat_inj.symm
  have e₄ : lead = 0xF4 ↔ lead.toNat = 0xF4 := UInt8.toNat_inj.symm
  rw [announced, if_neg h₁, if_neg h₂, if_neg h₃, if_neg h₄, if_neg h₅]
  by_cases c₀ : lead.toNat = 0xF0
  · exact ⟨0x90, 0xBF, if_pos (e₀.mpr c₀), by simp [c₀], by simp [c₀]⟩
  · rw [if_neg (mt e₀.mp c₀)]
    by_cases c₄ : lead.toNat = 0xF4
    · have h₆ : ¬ lead ≤ 0xF3 := by rw [UInt8.le_iff_toNat_le]; simp; omega
      exact ⟨0x80, 0x8F, by rw [if_neg h₆, if_pos (e₄.mpr c₄)], by simp [c₀], by simp [c₄]⟩
    · have h₆ : lead ≤ 0xF3 := by rw [UInt8.le_iff_toNat_le]; simp; omega
      exact ⟨0x80, 0xBF, if_pos h₆, by simp [c₀], by simp [c₄]⟩

end Announced

theorem isTail_ofNat {n : Nat} (low : 0x80 ≤ n) (high : n ≤ 0xBF) :
    isTail (UInt8.ofNat n) = true := by
  have same := toNat_ofNat (show n < 256 by omega)
  simp only [isTail, Bool.and_eq_true, decide_eq_true_eq, UInt8.le_iff_toNat_le, same]
  exact ⟨low, high⟩

theorem in_range {b first last : UInt8} (low : first.toNat ≤ b.toNat)
    (high : b.toNat ≤ last.toNat) : (b < first || last < b) = false := by
  simp only [Bool.or_eq_false_iff, decide_eq_false_iff_not, UInt8.lt_iff_toNat_lt]
  omega

section Character

variable {c : Char}

theorem utf8EncodeChar_one (h : c.toNat ≤ 0x7F) :
    String.utf8EncodeChar c = [UInt8.ofNat c.toNat] := if_pos h

theorem utf8EncodeChar_two (low : ¬ c.toNat ≤ 0x7F) (high : c.toNat ≤ 0x7FF) :
    String.utf8EncodeChar c =
      [UInt8.ofNat (c.toNat / 64 % 0x20 + 0xC0), UInt8.ofNat (c.toNat % 0x40 + 0x80)] :=
  (if_neg low).trans (if_pos high)

theorem utf8EncodeChar_three (low : ¬ c.toNat ≤ 0x7FF) (high : c.toNat ≤ 0xFFFF) :
    String.utf8EncodeChar c =
      [UInt8.ofNat (c.toNat / 4096 % 0x10 + 0xE0), UInt8.ofNat (c.toNat / 64 % 0x40 + 0x80),
        UInt8.ofNat (c.toNat % 0x40 + 0x80)] :=
  (if_neg fun h => low (Nat.le_trans h (by decide))).trans ((if_neg low).trans (if_pos high))

theorem utf8EncodeChar_four (low : ¬ c.toNat ≤ 0xFFFF) :
    String.utf8EncodeChar c =
      [UInt8.ofNat (c.toNat / 262144 % 0x08 + 0xF0), UInt8.ofNat (c.toNat / 4096 % 0x40 + 0x80),
        UInt8.ofNat (c.toNat / 64 % 0x40 + 0x80), UInt8.ofNat (c.toNat % 0x40 + 0x80)] :=
  (if_neg fun h => low (Nat.le_trans h (by decide))).trans
    ((if_neg fun h => low (Nat.le_trans h (by decide))).trans (if_neg low))

variable (start : Nat) (rest : List UInt8)

theorem decodeFrom_one (h : c.toNat ≤ 0x7F) :
    decodeFrom start (String.utf8EncodeChar c ++ rest) =
      (c :: ·) <$> decodeFrom (start + 1) rest := by
  have same := toNat_ofNat (show c.toNat < 256 by omega)
  have small : UInt8.ofNat c.toNat < 0x80 := by
    rw [UInt8.lt_iff_toNat_lt, same]; simpa using Nat.lt_succ_of_le h
  rw [utf8EncodeChar_one h, List.singleton_append, decodeFrom.eq_def]
  simp only [if_pos small, same, Char.ofNat_toNat]

theorem decodeFrom_two (low : ¬ c.toNat ≤ 0x7F) (high : c.toNat ≤ 0x7FF) :
    decodeFrom start (String.utf8EncodeChar c ++ rest) =
      (c :: ·) <$> decodeFrom (start + 2) rest := by
  have lead := toNat_ofNat (show c.toNat / 64 % 0x20 + 0xC0 < 256 by omega)
  have tail := toNat_ofNat (show c.toNat % 0x40 + 0x80 < 256 by omega)
  rw [utf8EncodeChar_two low high, List.cons_append, List.singleton_append]
  generalize UInt8.ofNat (c.toNat / 64 % 0x20 + 0xC0) = a at lead
  generalize UInt8.ofNat (c.toNat % 0x40 + 0x80) = b at tail
  have big : ¬ a < 0x80 := by rw [UInt8.lt_iff_toNat_lt, lead]; simp
  have back : assemble (a.toNat % 32) [b] = c := by
    have value : a.toNat % 32 * 64 + b.toNat % 64 = c.toNat := by omega
    simp only [assemble, List.foldl_cons, List.foldl_nil, value, Char.ofNat_toNat]
  have fits : (b < 0x80 || 0xBF < b) = false := in_range (by simp [tail]) (by simp [tail]; omega)
  rw [decodeFrom.eq_def]
  simp only [if_neg big, announced_two a (by omega) (by omega), fits, Bool.false_eq_true, if_false, if_true, back]

theorem decodeFrom_three (low : ¬ c.toNat ≤ 0x7FF) (high : c.toNat ≤ 0xFFFF) :
    decodeFrom start (String.utf8EncodeChar c ++ rest) =
      (c :: ·) <$> decodeFrom (start + 3) rest := by
  have lead := toNat_ofNat (show c.toNat / 4096 % 0x10 + 0xE0 < 256 by omega)
  have first := toNat_ofNat (show c.toNat / 64 % 0x40 + 0x80 < 256 by omega)
  have second := toNat_ofNat (show c.toNat % 0x40 + 0x80 < 256 by omega)
  have ends : isTail (UInt8.ofNat (c.toNat % 0x40 + 0x80)) = true :=
    isTail_ofNat (by omega) (by omega)
  rw [utf8EncodeChar_three low high]
  generalize UInt8.ofNat (c.toNat / 4096 % 0x10 + 0xE0) = a at lead
  generalize UInt8.ofNat (c.toNat / 64 % 0x40 + 0x80) = b at first
  generalize UInt8.ofNat (c.toNat % 0x40 + 0x80) = d at second ends
  have big : ¬ a < 0x80 := by rw [UInt8.lt_iff_toNat_lt, lead]; simp
  have back : assemble (a.toNat % 16) [b, d] = c := by
    have value : (a.toNat % 16 * 64 + b.toNat % 64) * 64 + d.toNat % 64 = c.toNat := by omega
    simp only [assemble, List.foldl_cons, List.foldl_nil, value, Char.ofNat_toNat]
  -- The surrogates are no characters, which keeps the first tail of `0xED` in its range.
  have valid : c.toNat < 0xD800 ∨ 0xDFFF < c.toNat ∧ c.toNat < 0x110000 := c.valid
  obtain ⟨l, u, known, hl, hu⟩ := announced_three a (by omega) (by omega)
  have fits : (b < l || u < b) = false :=
    in_range (by rw [hl]; split <;> omega) (by rw [hu]; split <;> omega)
  simp only [List.cons_append, List.nil_append]
  rw [decodeFrom.eq_def]
  simp only [if_neg big, known, fits, ends, Bool.not_true, Bool.false_eq_true, if_false, if_true, back,
    show ¬ (2 : Nat) = 1 by decide]

theorem decodeFrom_four (low : ¬ c.toNat ≤ 0xFFFF) :
    decodeFrom start (String.utf8EncodeChar c ++ rest) =
      (c :: ·) <$> decodeFrom (start + 4) rest := by
  have lead := toNat_ofNat (show c.toNat / 262144 % 0x08 + 0xF0 < 256 by omega)
  have first := toNat_ofNat (show c.toNat / 4096 % 0x40 + 0x80 < 256 by omega)
  have second := toNat_ofNat (show c.toNat / 64 % 0x40 + 0x80 < 256 by omega)
  have third := toNat_ofNat (show c.toNat % 0x40 + 0x80 < 256 by omega)
  have next : isTail (UInt8.ofNat (c.toNat / 64 % 0x40 + 0x80)) = true :=
    isTail_ofNat (by omega) (by omega)
  have ends : isTail (UInt8.ofNat (c.toNat % 0x40 + 0x80)) = true :=
    isTail_ofNat (by omega) (by omega)
  rw [utf8EncodeChar_four low]
  generalize UInt8.ofNat (c.toNat / 262144 % 0x08 + 0xF0) = a at lead
  generalize UInt8.ofNat (c.toNat / 4096 % 0x40 + 0x80) = b at first
  generalize UInt8.ofNat (c.toNat / 64 % 0x40 + 0x80) = d at second next
  generalize UInt8.ofNat (c.toNat % 0x40 + 0x80) = e at third ends
  have big : ¬ a < 0x80 := by rw [UInt8.lt_iff_toNat_lt, lead]; simp
  have valid : c.toNat < 0xD800 ∨ 0xDFFF < c.toNat ∧ c.toNat < 0x110000 := c.valid
  have back : assemble (a.toNat % 8) [b, d, e] = c := by
    have value : ((a.toNat % 8 * 64 + b.toNat % 64) * 64 + d.toNat % 64) * 64 + e.toNat % 64 =
        c.toNat := by omega
    simp only [assemble, List.foldl_cons, List.foldl_nil, value, Char.ofNat_toNat]
  obtain ⟨l, u, known, hl, hu⟩ := announced_four a (by omega) (by omega)
  have fits : (b < l || u < b) = false :=
    in_range (by rw [hl]; split <;> omega) (by rw [hu]; split <;> omega)
  simp only [List.cons_append, List.nil_append]
  rw [decodeFrom.eq_def]
  simp only [if_neg big, known, fits, next, ends, Bool.not_true, Bool.false_eq_true, if_false, back,
    show ¬ (3 : Nat) = 1 by decide, show ¬ (3 : Nat) = 2 by decide]

end Character

theorem decodeFrom_utf8EncodeChar (start : Nat) (c : Char) (rest : List UInt8) :
    ∃ next, decodeFrom start (String.utf8EncodeChar c ++ rest) =
      (c :: ·) <$> decodeFrom next rest := by
  by_cases h₁ : c.toNat ≤ 0x7F
  · exact ⟨_, decodeFrom_one start rest h₁⟩
  by_cases h₂ : c.toNat ≤ 0x7FF
  · exact ⟨_, decodeFrom_two start rest h₁ h₂⟩
  by_cases h₃ : c.toNat ≤ 0xFFFF
  · exact ⟨_, decodeFrom_three start rest h₂ h₃⟩
  · exact ⟨_, decodeFrom_four start rest h₃⟩

theorem decodeFrom_flatMap (start : Nat) (cs : List Char) :
    decodeFrom start (cs.flatMap String.utf8EncodeChar) = .ok cs := by
  induction cs generalizing start with
  | nil => rfl
  | cons c cs ih =>
    obtain ⟨next, read⟩ :=
      decodeFrom_utf8EncodeChar start c (cs.flatMap String.utf8EncodeChar)
    rw [List.flatMap_cons, read, ih next]
    rfl

/-- The bytes of a text are read back as the text. -/
theorem decode_encode (s : String) : decode (encode s) = .ok s := by
  rw [decode, encode, decodeFrom_flatMap]
  exact congrArg Except.ok String.ofList_toList

end SchemaCodec.Utf8
