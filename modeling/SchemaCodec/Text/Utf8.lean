/-! # UTF-8

Text as bytes and back. Reading names the first byte that no character can hold, and tells a
sequence that is wrong from one that the end of the input cuts off.
-/

namespace SchemaCodec.Utf8

/-- Why a byte string is not UTF-8; `start` counts the valid bytes before the fault. -/
inductive Fault where
  /-- The `length` bytes from `start` begin no character. -/
  | broken (start length : Nat)
  /-- The input ends inside a character that was valid so far. -/
  | cutOff (start : Nat)
  deriving DecidableEq, Repr

def Fault.message : Fault → String
  | .broken start length =>
    "invalid utf-8 sequence of " ++ toString length ++ " bytes from index " ++ toString start
  | .cutOff start => "incomplete utf-8 byte sequence from index " ++ toString start

def encode (s : String) : List UInt8 := s.toList.flatMap String.utf8EncodeChar

/-- What a lead byte announces: how many bytes follow, and the range of the first of them. -/
def announced (lead : UInt8) : Option (Nat × UInt8 × UInt8) :=
  if lead < 0xC2 then none
  else if lead ≤ 0xDF then some (1, 0x80, 0xBF)
  else if lead = 0xE0 then some (2, 0xA0, 0xBF)
  else if lead = 0xED then some (2, 0x80, 0x9F)
  else if lead ≤ 0xEF then some (2, 0x80, 0xBF)
  else if lead = 0xF0 then some (3, 0x90, 0xBF)
  else if lead ≤ 0xF3 then some (3, 0x80, 0xBF)
  else if lead = 0xF4 then some (3, 0x80, 0x8F)
  else none

def isTail (b : UInt8) : Bool := 0x80 ≤ b && b ≤ 0xBF

/-- The character of a lead byte's payload followed by six bits from each tail byte. -/
def assemble (payload : Nat) (tails : List UInt8) : Char :=
  Char.ofNat (tails.foldl (fun n b => n * 64 + b.toNat % 64) payload)

def decodeFrom (start : Nat) : List UInt8 → Except Fault (List Char)
  | [] => .ok []
  | lead :: rest =>
    if lead < 0x80 then (Char.ofNat lead.toNat :: ·) <$> decodeFrom (start + 1) rest
    else match announced lead, rest with
      | none, _ => .error (.broken start 1)
      | some _, [] => .error (.cutOff start)
      | some (more, low, high), b :: rest =>
        if b < low || high < b then .error (.broken start 1)
        else if more = 1 then
          (assemble (lead.toNat % 32) [b] :: ·) <$> decodeFrom (start + 2) rest
        else match rest with
          | [] => .error (.cutOff start)
          | c :: rest =>
            if !isTail c then .error (.broken start 2)
            else if more = 2 then
              (assemble (lead.toNat % 16) [b, c] :: ·) <$> decodeFrom (start + 3) rest
            else match rest with
              | [] => .error (.cutOff start)
              | d :: rest =>
                if !isTail d then .error (.broken start 3)
                else (assemble (lead.toNat % 8) [b, c, d] :: ·) <$> decodeFrom (start + 4) rest

def decode (bytes : List UInt8) : Except Fault String := String.ofList <$> decodeFrom 0 bytes

example : encode "hé" = [0x68, 0xC3, 0xA9] := by decide

example : decode [0x68, 0xC3, 0xA9] = .ok "hé" := rfl

example : decode [0x61, 0xF0, 0x9F, 0x98, 0x80] = .ok "a😀" := rfl

example : decode [0x61, 0xE2, 0x28, 0xA1] = .error (.broken 1 1) := rfl

example : decode [0x61, 0xF0, 0x9F, 0x98] = .error (.cutOff 1) := rfl

end SchemaCodec.Utf8
