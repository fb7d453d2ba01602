import Mathlib.Data.List.TakeWhile
import SchemaCodec.Proofs.TypeName.Arrays

/-! # Where names are cut

Blanks around a name make no difference to where it is cut, the part in front of the first mark of a
sequence has no such mark, and a mark after a name whose brackets match is one more mark.
-/

namespace SchemaCodec

def Blank (cs : List Char) : Prop := ∀ c ∈ cs, isBlank c = true

theorem exists_trim (cs : List Char) :
    ∃ front back, Blank front ∧ Blank back ∧ cs = front ++ trim cs ++ back := by
  have ends : ∀ ds : List Char, Blank (ds.takeWhile isBlank) := fun ds c hc =>
    List.mem_takeWhile_imp hc
  refine ⟨cs.takeWhile isBlank, ((cs.dropWhile isBlank).reverse.takeWhile isBlank).reverse, ends _,
    fun c hc => ends _ c (List.mem_reverse.mp hc), ?_⟩
  rw [trim, List.append_assoc, ← List.reverse_append, List.takeWhile_append_dropWhile,
    List.reverse_reverse, List.takeWhile_append_dropWhile]

theorem trim_padded {front back : List Char} (hf : Blank front) (hb : Blank back)
    (cs : List Char) : trim (front ++ cs ++ back) = trim cs := by
  have gone : ∀ ds, Blank ds → ds.dropWhile isBlank = [] := fun ds hds =>
    List.dropWhile_eq_nil_iff.mpr hds
  rw [trim, trim, List.append_assoc, List.dropWhile_append_of_pos hf, List.dropWhile_append]
  split
  · next empty =>
    rw [gone back hb, List.isEmpty_iff.mp empty]
  · rw [List.reverse_append, List.dropWhile_append_of_pos fun c hc => hb c (List.mem_reverse.mp hc)]

theorem trim_trim (cs : List Char) : trim (trim cs) = trim cs := by
  obtain ⟨front, back, hf, hb, split⟩ := exists_trim cs
  have same := trim_padded hf hb (trim cs)
  rw [← split] at same
  exact same.symm

namespace TypeName

namespace Cutter

variable {k : Cutter} {depth : Nat} {c : Char} {cs : List Char}

theorem scan_cut (starts : k.delimiter.isPrefixOf (c :: cs) = true) :
    k.scan 0 0 (c :: cs) =
      let further := k.scan (k.delimiter.length - 1) 0 cs
      ([], further.1 :: further.2) := by
  rw [scan, if_pos ⟨rfl, starts⟩]

theorem scan_keep (whole : ¬ (depth = 0 ∧ k.delimiter.isPrefixOf (c :: cs) = true)) :
    k.scan 0 depth (c :: cs) =
      let further := k.scan 0 (k.step depth c) cs
      (c :: further.1, further.2) := by
  rw [scan, if_neg whole]

theorem whole_of_begins {whole : List Char} (same : cs <+: whole)
    (h : ¬ (depth = 0 ∧ k.delimiter.isPrefixOf (c :: whole) = true)) :
    ¬ (depth = 0 ∧ k.delimiter.isPrefixOf (c :: cs) = true) := by
  rintro ⟨outside, starts⟩
  have longer : c :: cs <+: c :: whole := (List.prefix_cons_inj c).mpr same
  exact h ⟨outside, List.isPrefixOf_iff_prefix.mpr
    ((List.isPrefixOf_iff_prefix.mp starts).trans longer)⟩

theorem begins_scan_fst (depth : Nat) (cs : List Char) : (k.scan 0 depth cs).1 <+: cs := by
  induction cs generalizing depth with
  | nil => exact List.nil_prefix
  | cons c cs ih =>
    by_cases cut : depth = 0 ∧ k.delimiter.isPrefixOf (c :: cs) = true
    · obtain ⟨rfl, starts⟩ := cut
      rw [scan_cut starts]
      exact List.nil_prefix
    · rw [scan_keep cut]
      exact (List.prefix_cons_inj c).mpr (ih _)

theorem scan_fst (depth : Nat) (cs : List Char) :
    k.scan 0 depth (k.scan 0 depth cs).1 = ((k.scan 0 depth cs).1, []) := by
  induction cs generalizing depth with
  | nil => rfl
  | cons c cs ih =>
    by_cases cut : depth = 0 ∧ k.delimiter.isPrefixOf (c :: cs) = true
    · obtain ⟨rfl, starts⟩ := cut
      rw [scan_cut starts]
      rfl
    · rw [scan_keep cut]
      dsimp only
      rw [scan_keep (whole_of_begins (begins_scan_fst _ cs) cut), ih]

theorem scan_of_append {more : List Char} (h : k.scan 0 depth (cs ++ more) = (cs ++ more, [])) :
    k.scan 0 depth cs = (cs, []) := by
  induction cs generalizing depth with
  | nil => rfl
  | cons c cs ih =>
    rw [List.cons_append] at h
    by_cases cut : depth = 0 ∧ k.delimiter.isPrefixOf (c :: (cs ++ more)) = true
    · obtain ⟨rfl, starts⟩ := cut
      rw [scan_cut starts] at h
      cases h
    · rw [scan_keep cut] at h
      obtain ⟨first, further⟩ := Prod.mk.inj h
      rw [scan_keep (whole_of_begins (List.prefix_append cs more) cut),
        ih (Prod.ext (List.cons.inj first).2 further)]

end Cutter

/-! ## Blanks -/

theorem not_cut_of_blank {depth : Nat} {c : Char} {cs : List Char} (blank : isBlank c = true) :
    ¬ (depth = 0 ∧ arrayCutter.delimiter.isPrefixOf (c :: cs) = true) := by
  rintro ⟨-, starts⟩
  obtain ⟨rest, split⟩ := List.isPrefixOf_iff_prefix.mp starts
  obtain ⟨rfl, -⟩ := List.cons.inj split
  exact absurd blank (by decide)

theorem step_of_blank {c : Char} (blank : isBlank c = true) (depth : Nat) :
    arrayCutter.step depth c = depth := by
  have opens : c ≠ '<' := by
    rintro rfl
    exact absurd blank (by decide)
  have closes : c ≠ '>' := by
    rintro rfl
    exact absurd blank (by decide)
  simp [Cutter.step, arrayCutter, opens, closes]

theorem scan_front {front : List Char} (hf : Blank front) (depth : Nat) (cs : List Char) :
    arrayCutter.scan 0 depth (front ++ cs) =
      let further := arrayCutter.scan 0 depth cs
      (front ++ further.1, further.2) := by
  induction front with
  | nil => rfl
  | cons c front ih =>
    have blank := hf c List.mem_cons_self
    rw [List.cons_append, Cutter.scan_keep (not_cut_of_blank blank), step_of_blank blank,
      ih fun d hd => hf d (List.mem_cons_of_mem c hd)]
    rfl

theorem isPrefixOf_back {back : List Char} (hb : Blank back) (c : Char) (cs : List Char) :
    arrayCutter.delimiter.isPrefixOf (c :: (cs ++ back)) =
      arrayCutter.delimiter.isPrefixOf (c :: cs) := by
  show (['[', ']'] : List Char).isPrefixOf (c :: (cs ++ back)) =
    (['[', ']'] : List Char).isPrefixOf (c :: cs)
  cases cs with
  | cons d cs => simp [List.isPrefixOf]
  | nil =>
    cases back with
    | nil => rfl
    | cons b back =>
      have other : b ≠ ']' := by
        rintro rfl
        exact absurd (hb _ List.mem_cons_self) (by decide)
      simp [List.isPrefixOf, other.symm]

theorem scan_blanks {back : List Char} (hb : Blank back) (skip depth : Nat) :
    Blank (arrayCutter.scan skip depth back).1 ∧ (arrayCutter.scan skip depth back).2 = [] := by
  induction back generalizing skip with
  | nil => cases skip <;> exact ⟨hb, rfl⟩
  | cons c back ih =>
    have rest : Blank back := fun d hd => hb d (List.mem_cons_of_mem c hd)
    cases skip with
    | zero =>
      have all := scan_front hb depth []
      rw [List.append_nil] at all
      rw [all]
      refine ⟨?_, rfl⟩
      show Blank (c :: back ++ [])
      rwa [List.append_nil]
    | succ skip =>
      rw [Cutter.scan]
      exact ih rest skip

theorem scan_back {back : List Char} (hb : Blank back) (skip depth : Nat) (cs : List Char) :
    (∃ more, Blank more ∧ (arrayCutter.scan skip depth (cs ++ back)).1 =
      (arrayCutter.scan skip depth cs).1 ++ more) ∧
    (arrayCutter.scan skip depth (cs ++ back)).2.length =
      (arrayCutter.scan skip depth cs).2.length := by
  induction cs generalizing skip depth with
  | nil =>
    obtain ⟨blank, none⟩ := scan_blanks hb skip depth
    have nothing : arrayCutter.scan skip depth [] = ([], []) := by cases skip <;> rfl
    rw [List.nil_append, nothing, none]
    exact ⟨⟨_, blank, rfl⟩, rfl⟩
  | cons c cs ih =>
    rw [List.cons_append]
    cases skip with
    | succ skip =>
      rw [Cutter.scan, Cutter.scan]
      exact ih skip depth
    | zero =>
      by_cases cut : depth = 0 ∧ arrayCutter.delimiter.isPrefixOf (c :: cs) = true
      · obtain ⟨rfl, starts⟩ := cut
        rw [Cutter.scan_cut starts, Cutter.scan_cut ((isPrefixOf_back hb c cs).trans starts)]
        refine ⟨⟨[], fun _ no => absurd no List.not_mem_nil, rfl⟩, ?_⟩
        exact congrArg (· + 1) (ih _ 0).2
      · have cut' := cut
        rw [← isPrefixOf_back hb] at cut'
        rw [Cutter.scan_keep cut, Cutter.scan_keep cut']
        obtain ⟨⟨more, blank, first⟩, further⟩ := ih 0 (arrayCutter.step depth c)
        exact ⟨⟨more, blank, congrArg (c :: ·) first⟩, further⟩

/-! ## Splitting -/

theorem splitArrays_eq (name : String) : splitArrays name =
    (String.ofList (trim (arrayCutter.scan 0 0 name.toList).1),
      (arrayCutter.scan 0 0 name.toList).2.length) := by
  rw [splitArrays, Cutter.cut, if_neg (by decide)]

theorem splitArrays_trim (cs : List Char) :
    splitArrays (String.ofList (trim cs)) = splitArrays (String.ofList cs) := by
  obtain ⟨front, back, hf, hb, split⟩ := exists_trim cs
  obtain ⟨⟨more, blank, first⟩, further⟩ := scan_back hb 0 0 (trim cs)
  have scanned := scan_front hf 0 (trim cs ++ back)
  rw [← List.append_assoc, ← split] at scanned
  rw [splitArrays_eq, splitArrays_eq, String.toList_ofList, String.toList_ofList, scanned]
  dsimp only
  rw [further, first, ← List.append_assoc, trim_padded hf blank]

theorem splitArrays_padded {front back : List Char} (hf : Blank front) (hb : Blank back)
    (cs : List Char) :
    splitArrays (String.ofList (front ++ cs ++ back)) = splitArrays (String.ofList cs) := by
  rw [← splitArrays_trim (front ++ cs ++ back), trim_padded hf hb, splitArrays_trim]

theorem splitArrays_fst (name : String) :
    splitArrays (splitArrays name).1 = ((splitArrays name).1, 0) := by
  obtain ⟨front, back, hf, hb, whole⟩ := exists_trim (arrayCutter.scan 0 0 name.toList).1
  have uncut := Cutter.scan_fst (k := arrayCutter) 0 name.toList
  rw [whole, List.append_assoc, scan_front hf] at uncut
  obtain ⟨first, further⟩ := Prod.mk.inj uncut
  have inner := Cutter.scan_of_append (Prod.ext (List.append_cancel_left first) further)
  rw [splitArrays_eq name, splitArrays_eq, String.toList_ofList, inner, trim_trim]
  rfl

/-! ## One more mark -/

def level (depth : Nat) (cs : List Char) : Nat := cs.foldl arrayCutter.step depth

theorem isPrefixOf_mark (c : Char) (cs : List Char) :
    arrayCutter.delimiter.isPrefixOf (c :: (cs ++ ['[', ']'])) =
      arrayCutter.delimiter.isPrefixOf (c :: cs) := by
  show (['[', ']'] : List Char).isPrefixOf (c :: (cs ++ ['[', ']'])) =
    (['[', ']'] : List Char).isPrefixOf (c :: cs)
  cases cs <;> simp [List.isPrefixOf]

/-- A mark that stands outside all brackets is cut at; the half of a mark before it may still have to
be passed. -/
theorem scan_mark {skip depth : Nat} {cs : List Char} (outside : level depth cs = 0)
    (pending : skip = 0 ∨ skip = 1 ∧ ∃ rest, cs = ']' :: rest) :
    (arrayCutter.scan skip depth (cs ++ ['[', ']'])).1 = (arrayCutter.scan skip depth cs).1 ∧
      (arrayCutter.scan skip depth (cs ++ ['[', ']'])).2.length =
        (arrayCutter.scan skip depth cs).2.length + 1 := by
  induction cs generalizing skip depth with
  | nil =>
    obtain rfl : depth = 0 := outside
    rcases pending with rfl | ⟨-, rest, no⟩
    · exact ⟨rfl, rfl⟩
    · cases no
  | cons c cs ih =>
    rcases pending with rfl | ⟨rfl, rest, same⟩
    · rw [List.cons_append]
      by_cases cut : depth = 0 ∧ arrayCutter.delimiter.isPrefixOf (c :: cs) = true
      · obtain ⟨rfl, starts⟩ := cut
        obtain ⟨rest, split⟩ := List.isPrefixOf_iff_prefix.mp starts
        obtain ⟨rfl, rfl⟩ := List.cons.inj split
        rw [Cutter.scan_cut starts, Cutter.scan_cut ((isPrefixOf_mark _ _).trans starts)]
        exact ⟨rfl, congrArg (· + 1) (ih outside (.inr ⟨rfl, rest, rfl⟩)).2⟩
      · have cut' := cut
        rw [← isPrefixOf_mark] at cut'
        rw [Cutter.scan_keep cut, Cutter.scan_keep cut']
        obtain ⟨first, further⟩ := @ih 0 (arrayCutter.step depth c) outside (.inl rfl)
        exact ⟨congrArg (c :: ·) first, further⟩
    · obtain ⟨rfl, rfl⟩ := List.cons.inj same
      rw [List.cons_append, Cutter.scan, Cutter.scan]
      exact ih outside (.inl rfl)

theorem splitArrays_array {name : String} (outside : level 0 name.toList = 0) :
    splitArrays (array name) = ((splitArrays name).1, (splitArrays name).2 + 1) := by
  obtain ⟨first, further⟩ := scan_mark outside (.inl rfl)
  rw [splitArrays_eq name, splitArrays_eq, toList_array, first, further]

end TypeName

end SchemaCodec
