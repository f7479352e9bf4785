/-
Byte strings in hexadecimal.

Two digits make a byte.  Writing uses the small letters, reading takes both.  An
odd number of digits is refused before any digit is looked at.  This, and the wording of
the errors, follows the documented behaviour of the `hex` library.
-/
import EdgeDeletion.Text

namespace EdgeDeletion.Hex

/-- Why a text is not hexadecimal. -/
inductive HexError where
  | oddLength
  /-- The byte at a position is not a digit. -/
  | badDigit (byte : UInt8) (position : Nat)
deriving DecidableEq

def HexError.message : HexError → String
  | .oddLength => "Odd number of digits"
  | .badDigit byte position =>
    "Invalid character " ++ Text.quotedByte byte ++ " at position " ++ toString position

def encodeChars (bs : Bytes) : List Char := bs.flatMap Text.hexPair

def encode (bs : Bytes) : String := String.ofList (encodeChars bs)

/-- The number of a hexadecimal digit. -/
def digit? (c : UInt8) : Option Nat :=
  if 48 ≤ c ∧ c ≤ 57 then some (c.toNat - 48)
  else if 97 ≤ c ∧ c ≤ 102 then some (c.toNat - 87)
  else if 65 ≤ c ∧ c ≤ 70 then some (c.toNat - 55)
  else none

/-- Reads pairs of digits; `position` is the place of the first. -/
def decodePairs (position : Nat) : Bytes → Except HexError Bytes
  | [] => .ok []
  | [_] => .error .oddLength
  | high :: low :: rest =>
    match digit? high, digit? low with
    | none, _ => .error (.badDigit high position)
    | some _, none => .error (.badDigit low (position + 1))
    | some h, some l => (decodePairs (position + 2) rest).map (UInt8.ofNat (16 * h + l) :: ·)

/-- Reads a text, given by its bytes. -/
def decode (text : Bytes) : Except HexError Bytes :=
  if text.length % 2 = 1 then .error .oddLength else decodePairs 0 text

end EdgeDeletion.Hex
