import SchemaCodec.Json.Printer
import SchemaCodec.Json.Reader

/-! # Tokens of JSON

Strings and integers are read as they were written. A string ends at its own quote; an integer ends
where no further digit and no mark of a fraction or an exponent follows.
-/

namespace SchemaCodec.Json

variable {c : Char} {cs rest : List Char} {n : Nat}

/-! ## Strings -/

theorem unit?_digits (h : n < 0x10000) {a b c d : Char} (digits : Hex.digits 4 n = [a, b, c, d]) :
    unit? a b c d = some n := by
  have step : ∀ m, Hex.value? (Hex.digit (m % 16)) = some (m % 16) := fun m =>
    Hex.value?_digit (Nat.mod_lt m (by decide))
  simp only [Hex.digits, List.nil_append, List.cons_append] at digits
  obtain ⟨rfl, rfl, rfl, rfl, -⟩ := by simpa using digits
  rw [unit?, step, step, step, step]
  simp only [Option.bind_eq_bind, Option.bind_some, Option.pure_def, Option.some.injEq]
  omega

theorem readString_unit (h : n < 0x10000) (rest : List Char) :
    readString (unitEscape n ++ rest) =
      (readString rest).map fun p => (.ofUnit n :: p.1, p.2) := by
  obtain ⟨a, b, c, d, digits⟩ : ∃ a b c d, Hex.digits 4 n = [a, b, c, d] := ⟨_, _, _, _, rfl⟩
  rw [unitEscape, digits]
  simp only [List.cons_append, List.nil_append]
  rw [readString, unit?_digits h digits]
  cases readString rest with
  | none => rfl
  | some p => rfl

theorem readString_plain (quote : c ≠ '"') (backslash : c ≠ '\\') (control : ¬ c.toNat < 0x20)
    (rest : List Char) :
    readString (c :: rest) = (readString rest).map fun p => (.char c :: p.1, p.2) := by
  rw [readString]
  · rw [if_neg (not_or.mpr ⟨control, backslash⟩)]
    cases readString rest with
    | none => rfl
    | some p => rfl
  · exact quote
  · rintro _ _ _ _ _ rfl
    exact absurd rfl backslash
  · rintro _ _ rfl
    exact absurd rfl backslash

def letters : List (Char × Char) :=
  [('"', '"'), ('\\', '\\'), ('\x08', 'b'), ('\x0c', 'f'), ('\n', 'n'), ('\r', 'r'), ('\t', 't')]

theorem escape_letter : ∀ p ∈ letters,
    escape p.1 = ['\\', p.2] ∧ p.2 ≠ 'u' ∧ escaped? p.2 = some p.1 := by
  decide

theorem escape_other (other : c ∉ letters.map Prod.fst) :
    escape c = if c.toNat < 0x20 then unitEscape c.toNat else [c] := by
  simp only [letters, List.map_cons, List.map_nil, List.mem_cons, List.not_mem_nil, or_false,
    not_or] at other
  obtain ⟨quote, backslash, back, feed, line, carriage, tab⟩ := other
  rw [escape, if_neg quote, if_neg backslash, if_neg back, if_neg feed, if_neg line,
    if_neg carriage, if_neg tab]

theorem readString_escape (c : Char) (rest : List Char) :
    readString (escape c ++ rest) = (readString rest).map fun p => (.char c :: p.1, p.2) := by
  by_cases lettered : c ∈ letters.map Prod.fst
  · obtain ⟨⟨_, e⟩, mem, rfl⟩ := List.mem_map.mp lettered
    obtain ⟨same, other, letter⟩ := escape_letter _ mem
    rw [same, List.cons_append, List.cons_append, List.nil_append, readString, letter]
    · cases readString rest with
      | none => rfl
      | some p => rfl
    · rintro _ _ _ _ _ no
      exact absurd no other
  · rw [escape_other lettered]
    split
    · next control =>
      have unit : Piece.ofUnit c.toNat = .char c := by
        have low : (Utf16.isHigh c.toNat || Utf16.isLow c.toNat) = false := by
          simp only [Utf16.isHigh, Utf16.isLow, Bool.or_eq_false_iff, Bool.and_eq_false_iff,
            decide_eq_false_iff_not]
          omega
        rw [Piece.ofUnit, low, if_neg Bool.false_ne_true, Char.ofNat_toNat]
      rw [readString_unit (by omega), unit]
    · next plain =>
      simp only [letters, List.map_cons, List.mem_cons, not_or] at lettered
      exact readString_plain lettered.1 lettered.2.1 plain rest

theorem readString_pieces (s : String) (rest : List Char) :
    readString ((pieces s).flatMap Piece.print ++ '"' :: rest) = some (pieces s, rest) := by
  rw [pieces]
  induction s.toList with
  | nil => rw [List.map_nil, List.flatMap_nil, List.nil_append, readString]
  | cons c cs ih =>
    rw [List.map_cons, List.flatMap_cons, List.append_assoc, Piece.print, readString_escape, ih]
    rfl

/-! ## Integers -/

/-- No digit and no mark of a fraction or an exponent follows. -/
def Stops (rest : List Char) : Prop :=
  ∀ c more, rest = c :: more → isDigit c = false ∧ c ≠ '.' ∧ c ≠ 'e' ∧ c ≠ 'E'

theorem isDigit_eq (c : Char) : isDigit c = c.isDigit := by
  rw [isDigit, Char.isDigit]
  rfl

theorem isDigit_toDigits (n : Nat) : ∀ c ∈ Nat.toDigits 10 n, isDigit c = true := by
  intro c hc
  rw [isDigit_eq]
  exact Nat.isDigit_of_mem_toDigits (by decide) (by decide) hc

theorem takeWhile_digits (digits : ∀ c ∈ cs, isDigit c = true) (stops : Stops rest) :
    (cs ++ rest).takeWhile isDigit = cs ∧ (cs ++ rest).dropWhile isDigit = rest := by
  rw [List.takeWhile_append_of_pos digits, List.dropWhile_append_of_pos digits]
  cases rest with
  | nil => exact ⟨List.append_nil cs, rfl⟩
  | cons c more =>
    obtain ⟨digit, -⟩ := stops c more rfl
    rw [List.takeWhile_cons, List.dropWhile_cons, digit]
    exact ⟨List.append_nil cs, rfl⟩

theorem toDigits_cons (h : n ≠ 0) :
    ∃ c more, Nat.toDigits 10 n = c :: more ∧ c ≠ '0' ∧ isDigit c = true := by
  have digit : ∀ d : Fin 10, d.val ≠ 0 →
      Nat.digitChar d.val ≠ '0' ∧ isDigit (Nat.digitChar d.val) = true := by
    decide
  induction n using Nat.strongRecOn with
  | _ n ih =>
    by_cases small : n < 10
    · rw [Nat.toDigits_of_lt_base small]
      exact ⟨_, _, rfl, digit ⟨n, small⟩ h⟩
    · rw [Nat.toDigits_of_base_le (by decide) (Nat.not_lt.mp small)]
      obtain ⟨c, more, same, head⟩ := ih (n / 10) (by omega) (by omega)
      exact ⟨c, more ++ [(n % 10).digitChar], by rw [same, List.cons_append], head⟩

theorem readWhole_toDigits (n : Nat) (stops : Stops rest) :
    readWhole (Nat.toDigits 10 n ++ rest) = some (Nat.toDigits 10 n, rest) := by
  by_cases zero : n = 0
  · subst zero
    show readWhole ('0' :: rest) = some (['0'], rest)
    cases rest with
    | nil => rw [readWhole]
    | cons c more =>
      obtain ⟨digit, -⟩ := stops c more rfl
      rw [readWhole, digit, if_neg Bool.false_ne_true]
  · obtain ⟨c, more, same, other, -⟩ := toDigits_cons zero
    obtain ⟨taken, dropped⟩ := takeWhile_digits (isDigit_toDigits n) stops
    rw [same] at taken dropped ⊢
    rw [List.cons_append] at taken dropped ⊢
    rw [readWhole, readDigits, taken, dropped]
    intro _ same
    exact other (List.cons.inj same).1

theorem readFraction_stops (stops : Stops rest) : readFraction rest = some ([], rest) := by
  rw [readFraction]
  rintro more rfl
  exact absurd rfl (stops _ _ rfl).2.1

theorem readExponent_stops (stops : Stops rest) : readExponent rest = some ([], rest) := by
  cases rest with
  | nil => rfl
  | cons c more =>
    obtain ⟨-, -, lower, upper⟩ := stops c more rfl
    rw [readExponent.eq_def]
    dsimp only
    rw [if_neg (not_or.mpr ⟨lower, upper⟩)]

theorem toList_toString (n : Int) : (toString n).toList =
    if 0 ≤ n then Nat.toDigits 10 n.toNat else '-' :: Nat.toDigits 10 (-n).toNat := by
  show n.repr.toList = _
  rw [Int.repr_eq_if]
  split
  · exact Nat.toList_repr
  · rw [String.toList_append, Nat.toList_repr]
    rfl

theorem toDigits_ne_minus (n : Nat) (rest more : List Char) :
    Nat.toDigits 10 n ++ rest ≠ '-' :: more := by
  have digits := isDigit_toDigits n
  cases spelled : Nat.toDigits 10 n with
  | nil => exact absurd spelled (List.ne_nil_of_length_pos Nat.length_toDigits_pos)
  | cons c cs =>
    intro same
    rw [spelled] at digits
    obtain ⟨rfl, -⟩ := List.cons.inj same
    cases digits _ List.mem_cons_self

def Begins (c : Char) : Prop := c = '-' ∨ isDigit c = true

instance (c : Char) : Decidable (Begins c) := inferInstanceAs (Decidable (_ ∨ _))

theorem toString_cons (n : Int) : ∃ c more, (toString n).toList = c :: more ∧ Begins c := by
  rw [toList_toString]
  split
  · have digits := isDigit_toDigits n.toNat
    cases spelled : Nat.toDigits 10 n.toNat with
    | nil => exact absurd spelled (List.ne_nil_of_length_pos Nat.length_toDigits_pos)
    | cons c more => exact ⟨c, more, rfl, .inr (digits c (spelled ▸ List.mem_cons_self))⟩
  · exact ⟨'-', _, rfl, .inl rfl⟩

theorem Begins.ne (h : Begins c) (d : Char) (other : ¬ Begins d) : c ≠ d := by
  rintro rfl
  exact other h

theorem readNumber_toString (n : Int) (stops : Stops rest) :
    readNumber ((toString n).toList ++ rest) = some ((toString n).toList, rest) := by
  have whole := fun m => readWhole_toDigits m stops
  have fraction := readFraction_stops stops
  have exponent := readExponent_stops stops
  rw [toList_toString]
  split
  · rw [readNumber]
    · simp [whole, fraction, exponent]
    · exact fun more same => toDigits_ne_minus _ rest more same
  · rw [List.cons_append, readNumber]
    simp [whole, fraction, exponent]

/-- An integer is found back from its spelling. -/
theorem int?_toString (n : Int) : int? (toString n).toList = some n := by
  have digits : ∀ m, (Nat.toDigits 10 m ≠ [] ∧ (Nat.toDigits 10 m).all fun c =>
      '0' ≤ c && c ≤ '9') := by
    intro m
    exact ⟨List.ne_nil_of_length_pos Nat.length_toDigits_pos,
      List.all_eq_true.mpr (isDigit_toDigits m)⟩
  have value : ∀ m, (Nat.toDigits 10 m).foldl (fun n c => n * 10 + (c.toNat - 48)) 0 = m := by
    intro m
    have back := Nat.ofDigitChars_toDigits (n := m) (b := 10) (by decide) (by decide)
    rw [Nat.ofDigitChars] at back
    simp only [Nat.mul_comm 10] at back
    exact back
  rw [toList_toString]
  split
  · rw [int?]
    · dsimp only
      rw [if_pos (digits _), value]
      simp
      omega
    · intro more same
      exact toDigits_ne_minus _ [] more ((List.append_nil _).trans same)
  · next negative =>
    have positive : (-n).toNat ≠ 0 := by omega
    rw [int?]
    dsimp only
    rw [if_pos (digits _), value, Option.filter_some, if_pos (decide_eq_true positive)]
    simp
    omega

end SchemaCodec.Json
