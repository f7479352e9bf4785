/-
Fixed-width images of numbers whose byte order is the order of the numbers.

A word is written with its most significant byte first.  A signed word is
shifted up by half its range, so that negative numbers come first.  The doubles
without a sign move to the upper half, those with a sign are counted down, so
that a greater magnitude comes earlier.

* `ofBigEndian_bigEndian` — the image of a number that fits is read back;
* `bigEndian_ofBigEndian` — a number that was read has the image that it was read from;
* `length_bigEndian` — an image has its width.
-/
import EdgeDeletion.Bytes
import EdgeDeletion.Double

namespace EdgeDeletion

namespace Bytes

/-- The `width` lowest bytes of a number, the most significant first. -/
def bigEndian : (width : Nat) → Nat → Bytes
  | 0, _ => []
  | w + 1, n => UInt8.ofNat (n / Nat.pow 256 w) :: bigEndian w n

/-- The number whose bytes are given, the most significant first. -/
def ofBigEndian : Bytes → Nat
  | [] => 0
  | b :: bs => b.toNat * Nat.pow 256 bs.length + ofBigEndian bs

@[simp] theorem length_bigEndian (w n : Nat) : (bigEndian w n).length = w := by
  induction w with
  | zero => rfl
  | succ w ih => simp [bigEndian, ih]

theorem ofBigEndian_bigEndian_mod (w n : Nat) :
    ofBigEndian (bigEndian w n) = n % Nat.pow 256 w := by
  induction w with
  | zero => simp [bigEndian, ofBigEndian, Nat.mod_one]
  | succ w ih =>
    have hb : (UInt8.ofNat (n / Nat.pow 256 w)).toNat = n / Nat.pow 256 w % 256 :=
      UInt8.toNat_ofNat'
    rw [bigEndian, ofBigEndian, ih, length_bigEndian, hb]
    show _ = n % (Nat.pow 256 w * 256)
    rw [Nat.mod_mul, Nat.add_comm, Nat.mul_comm]

theorem ofBigEndian_bigEndian {w n : Nat} (h : n < Nat.pow 256 w) :
    ofBigEndian (bigEndian w n) = n := by
  rw [ofBigEndian_bigEndian_mod, Nat.mod_eq_of_lt h]

theorem ofBigEndian_lt (bs : Bytes) : ofBigEndian bs < Nat.pow 256 bs.length := by
  induction bs with
  | nil => simp [ofBigEndian]
  | cons b bs ih =>
    have hb : b.toNat * Nat.pow 256 bs.length ≤ 255 * Nat.pow 256 bs.length :=
      Nat.mul_le_mul_right _ (by have := b.toNat_lt; omega)
    show b.toNat * Nat.pow 256 bs.length + ofBigEndian bs < Nat.pow 256 bs.length * 256
    omega

/-- Only the lowest bytes of a number are written. -/
theorem bigEndian_add_mul (w k n : Nat) : bigEndian w (k * Nat.pow 256 w + n) = bigEndian w n := by
  induction w generalizing k with
  | zero => rfl
  | succ w ih =>
    have hpow : 0 < Nat.pow 256 w := Nat.pow_pos (by decide)
    have hshift : k * Nat.pow 256 (w + 1) + n = k * 256 * Nat.pow 256 w + n := by
      show k * (Nat.pow 256 w * 256) + n = _
      rw [Nat.mul_comm (Nat.pow 256 w), Nat.mul_assoc]
    rw [hshift, bigEndian, bigEndian, ih]
    congr 1
    apply UInt8.toNat_inj.1
    rw [UInt8.toNat_ofNat', UInt8.toNat_ofNat', Nat.mul_comm (k * 256), Nat.mul_add_div hpow]
    omega

/-- A number that was read is written with the bytes that it was read from. -/
theorem bigEndian_ofBigEndian (bs : Bytes) : bigEndian bs.length (ofBigEndian bs) = bs := by
  induction bs with
  | nil => rfl
  | cons b bs ih =>
    have hlt := ofBigEndian_lt bs
    have hdiv : (b.toNat * Nat.pow 256 bs.length + ofBigEndian bs) / Nat.pow 256 bs.length
        = b.toNat := by
      rw [Nat.mul_comm, Nat.mul_add_div (by omega), Nat.div_eq_of_lt hlt, Nat.add_zero]
    rw [List.length_cons, bigEndian, ofBigEndian, bigEndian_add_mul, ih, hdiv, UInt8.ofNat_toNat]

/-- The number in the first `width` bytes, if there are as many. -/
def readBigEndian? (width : Nat) (bs : Bytes) : Option Nat :=
  (take? width bs).map fun p => ofBigEndian p.1

end Bytes

namespace Ordered

open Bytes

def ofUInt32 (v : UInt32) : Bytes := bigEndian 4 v.toNat

def ofUInt64 (v : UInt64) : Bytes := bigEndian 8 v.toNat

/-- The image of a signed 32-bit number: its distance from the least one. -/
def ofInt32 (v : Int32) : Bytes := bigEndian 4 (v.toInt + 0x80000000).toNat

/-- The image of a signed 64-bit number: its distance from the least one. -/
def ofInt64 (v : Int64) : Bytes := bigEndian 8 (v.toInt + 0x8000000000000000).toNat

/-- The place of a double in the order of all doubles. -/
def doublePlace (d : Double) : Nat :=
  if d.isNegative then 0xffffffffffffffff - d.bits.toNat
  else d.bits.toNat + 0x8000000000000000

/-- The double at a place in the order of all doubles. -/
def doubleAt (place : Nat) : Double :=
  ⟨UInt64.ofNat
    (if place < 0x8000000000000000 then 0xffffffffffffffff - place
      else place - 0x8000000000000000)⟩

def ofDouble (d : Double) : Bytes := bigEndian 8 (doublePlace d)

/-- Reads an unsigned 32-bit number from the front; what follows is ignored, here and below. -/
def toUInt32? (bs : Bytes) : Option UInt32 := (readBigEndian? 4 bs).map UInt32.ofNat

def toUInt64? (bs : Bytes) : Option UInt64 := (readBigEndian? 8 bs).map UInt64.ofNat

def toInt32? (bs : Bytes) : Option Int32 :=
  (readBigEndian? 4 bs).map fun n => Int32.ofInt ((n : Int) - 0x80000000)

def toInt64? (bs : Bytes) : Option Int64 :=
  (readBigEndian? 8 bs).map fun n => Int64.ofInt ((n : Int) - 0x8000000000000000)

def toDouble? (bs : Bytes) : Option Double := (readBigEndian? 8 bs).map doubleAt

theorem doubleAt_doublePlace (d : Double) : doubleAt (doublePlace d) = d := by
  obtain ⟨bits⟩ := d
  refine congrArg Double.mk (UInt64.toNat_inj.1 ?_)
  have := bits.toNat_lt
  simp only [doublePlace, Double.isNegative, decide_eq_true_eq]
  rw [UInt64.toNat_ofNat']
  split <;> split <;> omega

end Ordered

end EdgeDeletion
