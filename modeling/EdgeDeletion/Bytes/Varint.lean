/-
Variable-length numbers in base 128, the low digit first.

Each byte carries seven bits; its high bit says that another byte follows.  A
64-bit number takes one to ten bytes, and the tenth may only add the last bit.

* `decode_encode` — a written number is read back and what follows it is left.
-/
import EdgeDeletion.Bytes

namespace EdgeDeletion.Varint

/-- The digits of a number, each but the last with its high bit set. -/
def digits (n : Nat) : Bytes :=
  if n < 128 then [UInt8.ofNat n] else UInt8.ofNat (n % 128 + 128) :: digits (n / 128)
termination_by n

def encode (v : UInt64) : Bytes := digits v.toNat

/-- Reads a number of at most `count` bytes and gives the bytes after those it looked at.  The
last byte allowed may hold no more than one bit. -/
def decodeWithin : (count : Nat) → Bytes → Option Nat × Bytes
  | 0, bs => (none, bs)
  | _ + 1, [] => (none, [])
  | n + 1, b :: bs =>
    if n = 0 ∧ 1 < b.toNat % 128 then (none, bs)
    else if b.toNat < 128 then (some b.toNat, bs)
    else
      let (high, rest) := decodeWithin n bs
      (high.map fun h => b.toNat % 128 + 128 * h, rest)

/-- Reads a number from the front.  Without one, the bytes that were looked at are still
dropped. -/
def decode (bs : Bytes) : Option UInt64 × Bytes :=
  let (v, rest) := decodeWithin 10 bs
  (v.map UInt64.ofNat, rest)

theorem decodeWithin_digits (count : Nat) : ∀ (n : Nat) (rest : Bytes), n < 2 * Nat.pow 128 count →
    decodeWithin (count + 1) (digits n ++ rest) = (some n, rest) := by
  induction count with
  | zero =>
    intro n rest h
    have hn : n < 2 := by simpa using h
    have hb : (UInt8.ofNat n).toNat = n := by rw [UInt8.toNat_ofNat']; omega
    rw [digits, if_pos (by omega)]
    simp only [List.cons_append, List.nil_append, decodeWithin, hb]
    rw [if_neg (by omega), if_pos (by omega)]
  | succ count ih =>
    intro n rest h
    rw [digits]
    split
    · rename_i hn
      have hb : (UInt8.ofNat n).toNat = n := by rw [UInt8.toNat_ofNat']; omega
      simp only [List.cons_append, List.nil_append, decodeWithin, hb]
      rw [if_neg (by omega), if_pos hn]
    · rename_i hn
      have hb : (UInt8.ofNat (n % 128 + 128)).toNat = n % 128 + 128 := by
        rw [UInt8.toNat_ofNat']; omega
      have hlt : n / 128 < 2 * Nat.pow 128 count := by
        have h' : n < 2 * (Nat.pow 128 count * 128) := h
        omega
      simp only [List.cons_append]
      rw [decodeWithin, if_neg (by omega), if_neg (by omega), ih _ _ hlt]
      simp only [hb, Option.map_some, Prod.mk.injEq, Option.some.injEq, and_true]
      omega

theorem decode_encode (v : UInt64) (rest : Bytes) : decode (encode v ++ rest) = (some v, rest) := by
  rw [decode, encode, decodeWithin_digits 9 v.toNat rest v.toNat_lt]
  simp

end EdgeDeletion.Varint
