import SchemaCodec.Proofs.Text.Utf8

/-! # The order of encoded texts

Texts are ordered as their bytes are: the bytes of a smaller character come first, whatever follows.
-/

namespace SchemaCodec.Utf8

variable {a b : Nat} {c d : Char} {s t : String} {xs ys : List UInt8}

theorem cons_ofNat_lt (ha : a < 256) (hb : b < 256) (le : a ≤ b) (rest : a = b → xs < ys) :
    UInt8.ofNat a :: xs < UInt8.ofNat b :: ys := by
  rw [List.cons_lt_cons_iff, UInt8.lt_iff_toNat_lt, ← UInt8.toNat_inj, toNat_ofNat ha,
    toNat_ofNat hb]
  rcases Nat.lt_or_eq_of_le le with less | same
  · exact .inl less
  · exact .inr ⟨same, rest same⟩

theorem exists_lead (c : Char) : ∃ lead tail, String.utf8EncodeChar c = UInt8.ofNat lead :: tail ∧
    lead < 256 ∧ ((c.toNat ≤ 0x7F ∧ lead < 0xC0) ∨
      (¬ c.toNat ≤ 0x7F ∧ c.toNat ≤ 0x7FF ∧ 0xC0 ≤ lead ∧ lead < 0xE0) ∨
      (¬ c.toNat ≤ 0x7FF ∧ c.toNat ≤ 0xFFFF ∧ 0xE0 ≤ lead ∧ lead < 0xF0) ∨
      (¬ c.toNat ≤ 0xFFFF ∧ 0xF0 ≤ lead)) := by
  by_cases one : c.toNat ≤ 0x7F
  · exact ⟨_, _, utf8EncodeChar_one one, by omega, by omega⟩
  by_cases two : c.toNat ≤ 0x7FF
  · exact ⟨_, _, utf8EncodeChar_two one two, by omega, by omega⟩
  by_cases three : c.toNat ≤ 0xFFFF
  · exact ⟨_, _, utf8EncodeChar_three two three, by omega, by omega⟩
  · exact ⟨_, _, utf8EncodeChar_four three, by omega, by omega⟩

theorem utf8EncodeChar_lt (less : c < d) (xs ys : List UInt8) :
    String.utf8EncodeChar c ++ xs < String.utf8EncodeChar d ++ ys := by
  have less : c.toNat < d.toNat := less
  have bound : d.toNat < 0x110000 := by
    rcases d.valid with low | ⟨-, high⟩
    · exact Nat.lt_trans low (by decide)
    · exact high
  -- Characters of one width differ in some byte; of any others the lead bytes tell.
  by_cases one : d.toNat ≤ 0x7F
  · rw [utf8EncodeChar_one (by omega), utf8EncodeChar_one one]
    exact cons_ofNat_lt (by omega) (by omega) (by omega) fun same => by omega
  by_cases two : ¬ c.toNat ≤ 0x7F ∧ d.toNat ≤ 0x7FF
  · rw [utf8EncodeChar_two two.1 (by omega), utf8EncodeChar_two one two.2]
    exact cons_ofNat_lt (by omega) (by omega) (by omega) fun same =>
      cons_ofNat_lt (by omega) (by omega) (by omega) fun same' => by omega
  by_cases three : ¬ c.toNat ≤ 0x7FF ∧ d.toNat ≤ 0xFFFF
  · rw [utf8EncodeChar_three three.1 (by omega), utf8EncodeChar_three (by omega) three.2]
    exact cons_ofNat_lt (by omega) (by omega) (by omega) fun same =>
      cons_ofNat_lt (by omega) (by omega) (by omega) fun same' =>
        cons_ofNat_lt (by omega) (by omega) (by omega) fun same'' => by omega
  by_cases four : ¬ c.toNat ≤ 0xFFFF
  · rw [utf8EncodeChar_four four, utf8EncodeChar_four (by omega)]
    exact cons_ofNat_lt (by omega) (by omega) (by omega) fun same =>
      cons_ofNat_lt (by omega) (by omega) (by omega) fun same' =>
        cons_ofNat_lt (by omega) (by omega) (by omega) fun same'' =>
          cons_ofNat_lt (by omega) (by omega) (by omega) fun same''' => by omega
  obtain ⟨lead, tail, encoded, small, range⟩ := exists_lead c
  obtain ⟨lead', tail', encoded', small', range'⟩ := exists_lead d
  rw [encoded, encoded']
  exact cons_ofNat_lt small small' (by omega) fun same => by omega

theorem flatMap_lt {cs ds : List Char} (less : cs < ds) :
    cs.flatMap String.utf8EncodeChar < ds.flatMap String.utf8EncodeChar := by
  induction cs generalizing ds with
  | nil =>
    cases ds with
    | nil => exact absurd less (List.lt_irrefl [])
    | cons d ds =>
      obtain ⟨lead, tail, encoded, -⟩ := exists_lead d
      rw [List.flatMap_cons, encoded]
      exact List.nil_lt_cons _ _
  | cons c cs ih =>
    cases ds with
    | nil => exact absurd less (List.not_lt_nil _)
    | cons d ds =>
      rw [List.flatMap_cons, List.flatMap_cons]
      rcases List.cons_lt_cons_iff.mp less with head | ⟨rfl, tail⟩
      · exact utf8EncodeChar_lt head _ _
      · exact List.append_left_lt (ih tail)

theorem encode_lt (less : s < t) : encode s < encode t := flatMap_lt (String.lt_iff.mp less)

end SchemaCodec.Utf8
