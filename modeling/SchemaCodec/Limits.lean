/-! # Limits

The largest counts that decoding accepts. Each has a standard value, which a setting of the
environment replaces if it is a number of 64 bits.
-/

namespace SchemaCodec

/-- The bounds on decoded counts. -/
structure Limits where
  maxSequence : Nat
  maxText : Nat
  deriving DecidableEq, Repr

namespace Limits

/-- The standard bounds: 16 Mi elements and 64 Mi bytes of text. -/
def standard : Limits := ⟨16 * 1024 * 1024, 64 * 1024 * 1024⟩

def ofDigits? (cs : List Char) : Option Nat :=
  if cs ≠ [] ∧ cs.all fun c => '0' ≤ c && c ≤ '9' then
    some (cs.foldl (fun n c => n * 10 + (c.toNat - 48)) 0)
  else none

/-- The number of a setting: decimal digits after at most one plus sign, below `2 ^ 64`. -/
def ofSetting? (text : String) : Option Nat :=
  let digits := match text.toList with
    | '+' :: rest => rest
    | cs => cs
  (ofDigits? digits).filter (· < UInt64.size)

def ofEnvironment (maxSequence maxText : Option String) : Limits where
  maxSequence := (maxSequence.bind ofSetting?).getD standard.maxSequence
  maxText := (maxText.bind ofSetting?).getD standard.maxText

def override (limits : Limits) (maxSequence maxText : Option Nat) : Limits where
  maxSequence := maxSequence.getD limits.maxSequence
  maxText := maxText.getD limits.maxText

example : ofSetting? "+007" = some 7 := by decide

example : ofSetting? "-0" = none := by decide

end Limits

end SchemaCodec
