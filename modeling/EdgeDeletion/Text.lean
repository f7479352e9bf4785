/-
Texts of bytes and characters.

`Text.escaped` writes a byte string in printable ASCII, `Text.quotedByte` shows a
single byte between quotes, and `Text.trim` drops blanks at both ends of a text.
-/
import EdgeDeletion.Bytes

namespace EdgeDeletion.Text

/-- The hexadecimal digit of a number below sixteen. -/
def hexDigit (n : Nat) : Char :=
  if n < 10 then Char.ofNat ('0'.toNat + n) else Char.ofNat ('a'.toNat + (n - 10))

/-- The two hexadecimal digits of a byte. -/
def hexPair (b : UInt8) : List Char := [hexDigit (b.toNat / 16), hexDigit (b.toNat % 16)]

/-- The hexadecimal digits of a number, without leading zeros. -/
def hexDigits (n : Nat) : List Char :=
  if n < 16 then [hexDigit n] else hexDigits (n / 16) ++ [hexDigit (n % 16)]
termination_by n

/-- A byte in printable ASCII: tab, return, newline, quotes and the backslash after a backslash,
the other printable characters as they are, every other byte as `\x` and two digits. -/
def escapedByte (b : UInt8) : List Char :=
  if b = 9 then ['\\', 't']
  else if b = 13 then ['\\', 'r']
  else if b = 10 then ['\\', 'n']
  else if b = 39 then ['\\', '\'']
  else if b = 34 then ['\\', '"']
  else if b = 92 then ['\\', '\\']
  else if 32 ≤ b ∧ b < 127 then [Char.ofNat b.toNat]
  else '\\' :: 'x' :: hexPair b

def escaped (bs : Bytes) : String := String.ofList (bs.flatMap escapedByte)

/-- Whether the character with the code of a byte is shown as it is.  Controls, the no-break
space and the soft hyphen are not. -/
def isShown (b : UInt8) : Bool :=
  decide (32 ≤ b ∧ b < 127) || decide (161 ≤ b ∧ b ≠ 173)

/-- The character with the code of a byte, between quotes. -/
def quotedByte (b : UInt8) : String :=
  let chars :=
    if b = 0 then ['\\', '0']
    else if b = 9 then ['\\', 't']
    else if b = 13 then ['\\', 'r']
    else if b = 10 then ['\\', 'n']
    else if b = 39 then ['\\', '\'']
    else if b = 92 then ['\\', '\\']
    else if isShown b then [Char.ofNat b.toNat]
    else '\\' :: 'u' :: '\x7b' :: (hexDigits b.toNat ++ ['\x7d'])
  String.ofList ('\'' :: (chars ++ ['\'']))

/-- The characters with the property White_Space. -/
def isBlank (c : Char) : Bool :=
  let n := c.toNat
  (9 ≤ n && n ≤ 13) || n == 0x20 || n == 0x85 || n == 0xA0 || n == 0x1680 ||
    (0x2000 ≤ n && n ≤ 0x200A) || n == 0x2028 || n == 0x2029 || n == 0x202F || n == 0x205F ||
    n == 0x3000

/-- A text without the blanks at its ends. -/
def trim (s : String) : String :=
  String.ofList ((s.toList.dropWhile isBlank).reverse.dropWhile isBlank).reverse

end EdgeDeletion.Text
