import Mathlib.Algebra.BigOperators.Fin
import Mathlib.Data.Int.ModEq
import Mathlib.Tactic.Linarith
import Mathlib.Tactic.Ring
import SchemaCodec.Schema.Fingerprint

/-! # Fingerprints as polynomials

A fingerprint is the value at the base of the polynomial whose coefficients are the weights of the
code units, up to a multiple of the modulus. The remainder has the sign of what it is taken of, so a
fingerprint may be negative, but all that is computed on the way fits into a word.
-/

namespace SchemaCodec

namespace Utf16

theorem unit_lt {cs : List Char} {unit : Nat} (h : unit ∈ units cs) : unit < 0x10000 := by
  obtain ⟨c, -, hc⟩ := List.mem_flatMap.mp h
  have bound : c.toNat < 0x110000 := by
    rcases c.valid with small | large
    · exact Nat.lt_trans small (by decide)
    · exact large.2
  rw [unitsOf] at hc
  split at hc
  · simp only [List.mem_singleton] at hc
    omega
  · simp only [List.mem_cons, List.not_mem_nil, or_false] at hc
    omega

end Utf16

namespace Fingerprint

/-- The sum of the weights of the units, each times the power of the base at its place. -/
def polynomial (units : List Nat) : Int :=
  ∑ i : Fin units.length, ((units[i] : Int) - 96) * 31 ^ (i : Nat)

theorem polynomial_cons (unit : Nat) (units : List Nat) :
    polynomial (unit :: units) = (unit : Int) - 96 + 31 * polynomial units := by
  simp only [polynomial, List.length_cons, Fin.sum_univ_succ, Finset.mul_sum]
  congr 1
  · simp
  · refine Finset.sum_congr rfl fun i _ => ?_
    simp [pow_succ]
    ring

theorem polynomial_append (front back : List Nat) :
    polynomial (front ++ back) = polynomial front + 31 ^ front.length * polynomial back := by
  induction front with
  | nil => simp [polynomial]
  | cons unit front ih =>
    rw [List.cons_append, polynomial_cons, polynomial_cons, ih, List.length_cons, pow_succ]
    ring

def IsWord (z : Int) : Prop := Int64.minValue.toInt ≤ z ∧ z ≤ Int64.maxValue.toInt

theorem isWord_iff {z : Int} :
    IsWord z ↔ -9223372036854775808 ≤ z ∧ z ≤ 9223372036854775807 := Iff.rfl

theorem bmod_of_isWord {z : Int} (h : IsWord z) : z.bmod 18446744073709551616 = z := by
  obtain ⟨low, high⟩ := isWord_iff.mp h
  exact Int.bmod_eq_of_le_mul_two (by omega) (by omega)

theorem toInt_add {a b : Int64} (h : IsWord (a.toInt + b.toInt)) :
    (a + b).toInt = a.toInt + b.toInt :=
  (Int64.toInt_add a b).trans (bmod_of_isWord h)

theorem toInt_mul {a b : Int64} (h : IsWord (a.toInt * b.toInt)) :
    (a * b).toInt = a.toInt * b.toInt :=
  (Int64.toInt_mul a b).trans (bmod_of_isWord h)

theorem toInt_weight {unit : Nat} (h : unit < 0x10000) :
    (weight unit).toInt = (unit : Int) - 96 := by
  have small : (Int64.ofNat unit).toInt = unit := Int64.toInt_ofNat_of_lt (by omega)
  rw [weight, Int64.toInt_sub, small]
  exact bmod_of_isWord (isWord_iff.mpr (by show _ ≤ (unit : Int) - 96 ∧ (unit : Int) - 96 ≤ _; omega))

theorem tmod_modEq (z : Int) : z.tmod 1000000009 ≡ z [ZMOD 1000000009] := by
  rw [Int.tmod_def]
  exact Int.modEq_iff_dvd.mpr ⟨z.tdiv 1000000009, by ring⟩

/-! ## The loop -/

namespace Rolling

/-- What taking in a unit computes before the remainders, as numbers without bounds. -/
def intermediates (r : Rolling) (unit : Nat) : List Int :=
  [unit, (unit : Int) - 97, (unit : Int) - 96, ((unit : Int) - 96) * r.power.toInt,
    r.hash.toInt + ((unit : Int) - 96) * r.power.toInt, r.power.toInt * 31]

structure Follows (r : Rolling) (units : List Nat) : Prop where
  hash : r.hash.toInt ≡ polynomial units [ZMOD 1000000009]
  hash_lt : r.hash.toInt.natAbs < 1000000009
  power : r.power.toInt ≡ 31 ^ units.length [ZMOD 1000000009]
  power_nonneg : 0 ≤ r.power.toInt
  power_lt : r.power.toInt < 1000000009

variable {r : Rolling} {units : List Nat} {unit : Nat}

theorem follows_start : start.Follows [] := by
  constructor <;> decide

theorem Follows.isWord (h : r.Follows units) (small : unit < 0x10000) :
    ∀ z ∈ r.intermediates unit, IsWord z := by
  obtain ⟨-, hash_lt, -, nonneg, power_lt⟩ := h
  have low : -96 * 1000000008 ≤ ((unit : Int) - 96) * r.power.toInt := by nlinarith
  have high : ((unit : Int) - 96) * r.power.toInt ≤ 65439 * 1000000008 := by nlinarith
  simp [intermediates, isWord_iff]
  omega

theorem toInt_step (h : ∀ z ∈ r.intermediates unit, IsWord z) (small : unit < 0x10000) :
    (r.step unit).hash.toInt =
        (r.hash.toInt + ((unit : Int) - 96) * r.power.toInt).tmod 1000000009 ∧
      (r.step unit).power.toInt = (r.power.toInt * 31).tmod 1000000009 := by
  simp only [intermediates, List.forall_mem_cons] at h
  obtain ⟨-, -, -, product, sum, scaled, -⟩ := h
  rw [← toInt_weight small] at product sum ⊢
  have weighted := toInt_mul product
  constructor
  · rw [← weighted] at sum ⊢
    rw [← toInt_add sum]
    exact Int64.toInt_mod _ _
  · have times := toInt_mul (b := base) scaled
    exact (Int64.toInt_mod _ _).trans (congrArg (Int.tmod · 1000000009) times)

theorem Follows.step (h : r.Follows units) (small : unit < 0x10000) :
    (r.step unit).Follows (units ++ [unit]) := by
  obtain ⟨hash_eq, power_eq⟩ := toInt_step (h.isWord small) small
  have last : polynomial [unit] = (unit : Int) - 96 := by simp [polynomial]
  refine ⟨?_, ?_, ?_, ?_, ?_⟩
  · rw [hash_eq, polynomial_append, last, mul_comm (31 ^ units.length)]
    exact (tmod_modEq _).trans (h.hash.add (h.power.mul_left _))
  · rw [hash_eq, Int.natAbs_tmod]
    exact Nat.mod_lt _ (by decide)
  · rw [power_eq, List.length_append, List.length_singleton, pow_succ]
    exact (tmod_modEq _).trans (h.power.mul_right 31)
  · rw [power_eq]
    exact Int.tmod_nonneg _ (by have := h.power_nonneg; omega)
  · rw [power_eq]
    exact Int.tmod_lt_of_pos _ (by decide)

theorem follows_foldl (small : ∀ unit ∈ units, unit < 0x10000) :
    (units.foldl Rolling.step .start).Follows units := by
  induction units using List.reverseRecOn with
  | nil => exact follows_start
  | append_singleton units unit ih =>
    rw [List.foldl_append]
    exact (ih fun u hu => small u (List.mem_append_left _ hu)).step (small unit (by simp))

end Rolling

theorem ofString_follows (text : String) :
    ∃ power, Rolling.Follows ⟨ofString text, power⟩ (Utf16.units text.toList) :=
  ⟨_, Rolling.follows_foldl fun _ => Utf16.unit_lt⟩

theorem ofString_modEq (text : String) :
    (ofString text).toInt ≡ polynomial (Utf16.units text.toList) [ZMOD 1000000009] :=
  let ⟨_, follows⟩ := ofString_follows text
  follows.hash

/-- The fingerprint of a text is its polynomial up to a multiple of the modulus, which its absolute
value does not reach, and everything on the way to it is a word. So the fingerprint of two texts in a
row follows from theirs and the length of the first. -/
theorem fingerprint_polynomial :
    (∀ text : String,
      (ofString text).toInt ≡ polynomial (Utf16.units text.toList) [ZMOD 1000000009] ∧
      (ofString text).toInt.natAbs < 1000000009 ∧
      ∀ front unit back, Utf16.units text.toList = front ++ unit :: back →
        ∀ z ∈ (front.foldl Rolling.step .start).intermediates unit, IsWord z) ∧
    ∀ s t : String, (ofString (s ++ t)).toInt ≡
      (ofString s).toInt + 31 ^ (Utf16.units s.toList).length * (ofString t).toInt
        [ZMOD 1000000009] := by
  constructor
  · intro text
    obtain ⟨_, follows⟩ := ofString_follows text
    refine ⟨follows.hash, follows.hash_lt, fun front unit back split => ?_⟩
    have small : ∀ u ∈ front ++ unit :: back, u < 0x10000 := fun u hu =>
      Utf16.unit_lt (split.symm ▸ hu)
    have before := Rolling.follows_foldl fun u hu => small u (List.mem_append_left _ hu)
    exact before.isWord (small unit (by simp))
  · intro s t
    refine (ofString_modEq (s ++ t)).trans ?_
    rw [String.toList_append, Utf16.units_append, polynomial_append]
    exact ((ofString_modEq s).add ((ofString_modEq t).mul_left _)).symm

end Fingerprint

end SchemaCodec
