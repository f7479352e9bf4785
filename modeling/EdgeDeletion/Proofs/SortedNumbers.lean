/-
Numbers written so that they sort.

The images of one kind of numbers have one width.  They are in the order of the numbers,
every byte string of the width is the image of one number, and a reader finds the number
again whatever stands behind its image.

* `SortedCode` — a writer and a reader of which all this holds;
* `Numbering.sortedCode` — counting the values in their order makes such a code;
* `Flipped.ofInt64_eq`, `Flipped.ofDouble_eq` — flipping bits of words gives the same
  images, and `Flipped.toInt64?_eq`, `Flipped.toDouble?_eq` the same readers;
* `numbers_sorted` — the codes of words, signed words and doubles.
-/
import Mathlib.Data.Nat.Bitwise
import EdgeDeletion.Proofs.DoubleOrder

namespace EdgeDeletion

open KeyOrder (before)

/-! ### Words and their bits -/

namespace Ordered

variable {n k : Nat}

/-- Setting a bit above all others adds it. -/
theorem xor_two_pow_of_lt (h : n < 2 ^ k) : n ^^^ 2 ^ k = n + 2 ^ k := by
  have hlow : (n ^^^ 2 ^ k) % 2 ^ k = n := by
    rw [Nat.xor_mod_two_pow, Nat.mod_self, Nat.xor_zero, Nat.mod_eq_of_lt h]
  have hhigh : (n ^^^ 2 ^ k) / 2 ^ k = 1 := by
    rw [Nat.xor_div_two_pow, Nat.div_self (Nat.two_pow_pos k), Nat.div_eq_of_lt h, Nat.zero_xor]
  calc n ^^^ 2 ^ k
      = (n ^^^ 2 ^ k) % 2 ^ k + 2 ^ k * ((n ^^^ 2 ^ k) / 2 ^ k) := (Nat.mod_add_div ..).symm
    _ = n + 2 ^ k := by rw [hlow, hhigh, Nat.mul_one]

/-- Clearing the highest bit takes it away. -/
theorem xor_two_pow_of_ge (hge : 2 ^ k ≤ n) (h : n < 2 * 2 ^ k) : n ^^^ 2 ^ k = n - 2 ^ k := by
  have hset := xor_two_pow_of_lt (show n - 2 ^ k < 2 ^ k by omega)
  rw [Nat.sub_add_cancel hge] at hset
  calc n ^^^ 2 ^ k = n - 2 ^ k ^^^ 2 ^ k ^^^ 2 ^ k := by rw [hset]
    _ = n - 2 ^ k := by rw [Nat.xor_assoc, Nat.xor_self, Nat.xor_zero]

/-- A signed word with its sign bit flipped is its distance from the least one. -/
theorem toNat_xor_intMin (x : BitVec (k + 1)) :
    (x ^^^ BitVec.intMin (k + 1)).toNat = (x.toInt + (2 ^ k : Nat)).toNat := by
  have hx := x.isLt
  rw [BitVec.toNat_xor, BitVec.toNat_intMin_of_pos (Nat.succ_pos k), BitVec.toInt_eq_toNat_cond]
  show x.toNat ^^^ 2 ^ k = _
  rw [Nat.pow_succ'] at hx ⊢
  by_cases hsign : x.toNat < 2 ^ k
  · rw [xor_two_pow_of_lt hsign, if_pos (by omega)]
    omega
  · rw [xor_two_pow_of_ge (by omega) hx, if_neg (by omega)]
    omega

end Ordered

/-! ### Codes -/

/-- A writer and a reader of values.  The images have one width and sort like those values that
have a place in the order. -/
structure SortedCode {α : Type} (width : Nat) (ranked : α → Prop) (lt : α → α → Prop)
    (image : α → Bytes) (read : Bytes → Option α) : Prop where
  /-- Byte by byte an image comes before another one exactly if its value does. -/
  before_iff : ∀ v v', ranked v → ranked v' → (before (image v) (image v') = true ↔ lt v v')
  /-- A value is read from its image, whatever follows. -/
  read_image : ∀ v rest, read (image v ++ rest) = some v
  /-- If there are enough bytes, they start with the image of the value that is read from them. -/
  image_read : ∀ bs : Bytes, width ≤ bs.length →
    ∃ v, read bs = some v ∧ image v = bs.take width
  /-- From fewer bytes nothing is read. -/
  short : ∀ bs : Bytes, bs.length < width → read bs = none

/-! ### Codes made of numberings -/

namespace Ordered

open Bytes

variable {α : Type} {w : Nat} {bs : Bytes}

theorem readBigEndian?_of_le (h : w ≤ bs.length) :
    readBigEndian? w bs = some (ofBigEndian (bs.take w)) := by
  rw [readBigEndian?, take?, if_pos h, Option.map_some]

theorem readBigEndian?_of_lt (h : bs.length < w) : readBigEndian? w bs = none := by
  rw [readBigEndian?, take?, if_neg (Nat.not_le.2 h), Option.map_none]

/-- What is made of a number that was read depends on the numbers of the width only. -/
theorem map_readBigEndian?_congr {value value' : Nat → α}
    (h : ∀ n < Nat.pow 256 w, value n = value' n) (bs : Bytes) :
    (readBigEndian? w bs).map value = (readBigEndian? w bs).map value' := by
  by_cases hlen : w ≤ bs.length
  · have hlt := ofBigEndian_lt (bs.take w)
    rw [List.length_take, Nat.min_eq_left hlen] at hlt
    rw [readBigEndian?_of_le hlen, Option.map_some, Option.map_some, h _ hlt]
  · rw [readBigEndian?_of_lt (Nat.lt_of_not_le hlen), Option.map_none, Option.map_none]

/-- A numbering that counts the values in their order makes a code. -/
theorem Numbering.sortedCode {number : α → Nat} {value : Nat → α} (h : Numbering w number value)
    {ranked : α → Prop} {lt : α → α → Prop}
    (hlt : ∀ v v', ranked v → ranked v' → (number v < number v' ↔ lt v v')) :
    SortedCode w ranked lt (fun v => bigEndian w (number v))
      (fun bs => (readBigEndian? w bs).map value) where
  before_iff v v' hv hv' := by
    rw [h.before_image, ← hlt v v' hv hv']
    exact decide_eq_true_iff
  read_image := h.read_append
  image_read bs hlen := by
    have hwidth : (bs.take w).length = w := by rw [List.length_take, Nat.min_eq_left hlen]
    obtain ⟨v, hv⟩ := h.exists_image hwidth
    refine ⟨v, ?_, hv.symm⟩
    have hread := h.read_append v (bs.drop w)
    rwa [← hv, List.take_append_drop] at hread
  short bs hlen := by rw [readBigEndian?_of_lt hlen, Option.map_none]

/-- Values that have the numbers of some words are read as words first. -/
theorem Numbering.read_through {β : Type} {number : α → Nat} {value : Nat → α} {number' : β → Nat}
    {value' : Nat → β} (h : Numbering w number value) (h' : Numbering w number' value')
    {word : β → α} {ofWord : α → β} (hword : ∀ a, word (ofWord a) = a)
    (hnumber : ∀ v, number (word v) = number' v) (bs : Bytes) :
    ((readBigEndian? w bs).map value).map ofWord = (readBigEndian? w bs).map value' := by
  rw [Option.map_map]
  refine map_readBigEndian?_congr (fun n hn => ?_) bs
  -- the value made of the word has the same number as the word
  have hsame : number' (ofWord (value n)) = n := by
    rw [← hnumber, hword, h.number_value n hn]
  calc ofWord (value n) = value' (number' (ofWord (value n))) := (h'.value_number _).symm
    _ = value' n := by rw [hsame]

theorem toInt32?_eq_map : toInt32? = fun bs =>
    (readBigEndian? 4 bs).map fun n : Nat => Int32.ofInt ((n : Int) - 0x80000000) := by
  funext bs
  rw [toInt32?]
  cases readBigEndian? 4 bs <;> rfl

theorem toInt64?_eq_map : toInt64? = fun bs =>
    (readBigEndian? 8 bs).map fun n : Nat => Int64.ofInt ((n : Int) - 0x8000000000000000) := by
  funext bs
  rw [toInt64?]
  cases readBigEndian? 8 bs <;> rfl

/-! ### Images made by flipping bits -/

namespace Flipped

/-- The image of the bits of a signed word, the sign flipped. -/
def ofInt32 (v : Int32) : Bytes := ofUInt32 (v.toUInt32 ^^^ 0x80000000)

def toInt32? (bs : Bytes) : Option Int32 :=
  (toUInt32? bs).map fun w => (w ^^^ 0x80000000).toInt32

def ofInt64 (v : Int64) : Bytes := ofUInt64 (v.toUInt64 ^^^ 0x8000000000000000)

def toInt64? (bs : Bytes) : Option Int64 :=
  (toUInt64? bs).map fun w => (w ^^^ 0x8000000000000000).toInt64

/-- The word that is written for the bits of a double: all of them flipped under a sign, without
one the sign alone. -/
def doubleWord (bits : UInt64) : UInt64 :=
  if bits &&& 0x8000000000000000 ≠ 0 then ~~~bits else bits ^^^ 0x8000000000000000

/-- The bits of the double for which a word is written. -/
def wordDouble (word : UInt64) : UInt64 :=
  if word &&& 0x8000000000000000 ≠ 0 then word ^^^ 0x8000000000000000 else ~~~word

def ofDouble (d : Double) : Bytes := ofUInt64 (doubleWord d.bits)

def toDouble? (bs : Bytes) : Option Double := (toUInt64? bs).map fun w => ⟨wordDouble w⟩

theorem toNat_flip32 (v : Int32) :
    (v.toUInt32 ^^^ 0x80000000).toNat = (v.toInt + 0x80000000).toNat :=
  toNat_xor_intMin v.toBitVec

theorem toNat_flip64 (v : Int64) :
    (v.toUInt64 ^^^ 0x8000000000000000).toNat = (v.toInt + 0x8000000000000000).toNat :=
  toNat_xor_intMin v.toBitVec

theorem ofInt32_eq : ofInt32 = Ordered.ofInt32 := by
  funext v
  rw [ofInt32, ofUInt32, toNat_flip32, Ordered.ofInt32]

theorem ofInt64_eq : ofInt64 = Ordered.ofInt64 := by
  funext v
  rw [ofInt64, ofUInt64, toNat_flip64, Ordered.ofInt64]

theorem toInt32?_eq : toInt32? = Ordered.toInt32? := by
  funext bs
  have hword : ∀ w : UInt32, (w ^^^ 0x80000000).toInt32.toUInt32 ^^^ 0x80000000 = w := by
    intro w
    rw [UInt32.toUInt32_toInt32, UInt32.xor_assoc, UInt32.xor_self, UInt32.xor_zero]
  rw [toInt32?, toUInt32?, toInt32?_eq_map]
  exact numbering_uInt32.read_through numbering_int32 hword toNat_flip32 bs

theorem toInt64?_eq : toInt64? = Ordered.toInt64? := by
  funext bs
  have hword : ∀ w : UInt64,
      (w ^^^ 0x8000000000000000).toInt64.toUInt64 ^^^ 0x8000000000000000 = w := by
    intro w
    rw [UInt64.toUInt64_toInt64, UInt64.xor_assoc, UInt64.xor_self, UInt64.xor_zero]
  rw [toInt64?, toUInt64?, toInt64?_eq_map]
  exact numbering_uInt64.read_through numbering_int64 hword toNat_flip64 bs

/-! ### Doubles -/

/-- The sign is clear in the lower half of the words. -/
theorem and_sign_eq_zero_iff (w : UInt64) :
    w &&& 0x8000000000000000 = 0 ↔ w.toNat < 0x8000000000000000 := by
  have hw := w.toNat_lt
  have hand : (w &&& 0x8000000000000000).toNat
      = (w.toNat.testBit 63).toNat * 0x8000000000000000 := by
    rw [UInt64.toNat_and]
    exact Nat.and_two_pow w.toNat 63
  have hbit : w.toNat.testBit 63 = decide (0x8000000000000000 ≤ w.toNat) := by
    rw [Nat.testBit_eq_decide_div_mod_eq]
    exact decide_eq_decide.2 (by omega)
  rw [← UInt64.toNat_inj, hand, hbit]
  by_cases hlow : w.toNat < 0x8000000000000000
  · simp [hlow, Nat.not_le.2 hlow]
  · simp [hlow, Nat.le_of_not_lt hlow]

/-- The word of a double is its place. -/
theorem toNat_doubleWord (d : Double) : (doubleWord d.bits).toNat = doublePlace d := by
  by_cases hsign : d.bits.toNat < 0x8000000000000000
  · have hpositive : d.isNegative = false := decide_eq_false (Nat.not_le.2 hsign)
    rw [doubleWord, if_neg (not_not.2 ((and_sign_eq_zero_iff _).2 hsign)), doublePlace,
      hpositive, if_neg Bool.false_ne_true, UInt64.toNat_xor]
    exact xor_two_pow_of_lt (k := 63) hsign
  · have hnegative : d.isNegative = true := decide_eq_true (Nat.le_of_not_lt hsign)
    rw [doubleWord, if_pos fun hzero => hsign ((and_sign_eq_zero_iff _).1 hzero), doublePlace,
      hnegative, if_pos rfl, UInt64.toNat_not]
    rfl

/-- The bits made of a word are those of the double at its place. -/
theorem wordDouble_eq (w : UInt64) : wordDouble w = (doubleAt w.toNat).bits := by
  have hw := w.toNat_lt
  apply UInt64.toNat_inj.1
  rw [doubleAt, UInt64.toNat_ofNat']
  by_cases hsign : w.toNat < 0x8000000000000000
  · rw [wordDouble, if_neg (not_not.2 ((and_sign_eq_zero_iff _).2 hsign)), if_pos hsign,
      UInt64.toNat_not]
    show 0xffffffffffffffff - w.toNat = _
    omega
  · rw [wordDouble, if_pos fun hzero => hsign ((and_sign_eq_zero_iff _).1 hzero), if_neg hsign,
      UInt64.toNat_xor]
    refine (xor_two_pow_of_ge (k := 63) (Nat.le_of_not_lt hsign) hw).trans ?_
    omega

theorem ofDouble_eq : ofDouble = Ordered.ofDouble := by
  funext d
  rw [ofDouble, ofUInt64, toNat_doubleWord, Ordered.ofDouble]

theorem toDouble?_eq : toDouble? = Ordered.toDouble? := by
  funext bs
  have hvalue : ∀ n < Nat.pow 256 8, (⟨wordDouble (UInt64.ofNat n)⟩ : Double) = doubleAt n := by
    intro n hn
    rw [wordDouble_eq, UInt64.toNat_ofNat_of_lt' hn]
  rw [toDouble?, toUInt64?, Option.map_map]
  exact map_readBigEndian?_congr hvalue bs

end Flipped

/-! ### All kinds of numbers -/

/-- **Numbers are written so that they sort and are read back.**  For words, signed words and
doubles alike, the images of two numbers are in the order of the numbers, where the doubles other
than NaNs stand for reals or infinities and the negative zero comes before the positive one.  A
number is read from its image whatever follows; as many bytes as an image has, or more, start with
the image of the number that is read from them, and from fewer nothing is read.  Flipping the sign
of signed words, all bits of doubles with a sign and the sign of those without one makes the same
images and reads the same numbers. -/
theorem numbers_sorted :
    SortedCode 4 (fun _ => True) (fun v w => v.toNat < w.toNat) ofUInt32 toUInt32? ∧
    SortedCode 8 (fun _ => True) (fun v w => v.toNat < w.toNat) ofUInt64 toUInt64? ∧
    SortedCode 4 (fun _ => True) (fun v w => v.toInt < w.toInt) ofInt32 toInt32? ∧
    SortedCode 8 (fun _ => True) (fun v w => v.toInt < w.toInt) ofInt64 toInt64? ∧
    SortedCode 8 (fun d => d.isNaN = false) Double.Before ofDouble toDouble? ∧
    (Flipped.ofInt32 = ofInt32 ∧ Flipped.toInt32? = toInt32?) ∧
    (Flipped.ofInt64 = ofInt64 ∧ Flipped.toInt64? = toInt64?) ∧
    (Flipped.ofDouble = ofDouble ∧ Flipped.toDouble? = toDouble?) := by
  refine ⟨?uInt32, ?uInt64, ?int32, ?int64, ?double, ⟨Flipped.ofInt32_eq, Flipped.toInt32?_eq⟩,
    ⟨Flipped.ofInt64_eq, Flipped.toInt64?_eq⟩, ⟨Flipped.ofDouble_eq, Flipped.toDouble?_eq⟩⟩
  case uInt32 => exact numbering_uInt32.sortedCode fun _ _ _ _ => Iff.rfl
  case uInt64 => exact numbering_uInt64.sortedCode fun _ _ _ _ => Iff.rfl
  case int32 =>
    rw [toInt32?_eq_map]
    refine numbering_int32.sortedCode fun v w _ _ => ?_
    have hv := v.le_toInt
    have hw := w.le_toInt
    omega
  case int64 =>
    rw [toInt64?_eq_map]
    refine numbering_int64.sortedCode fun v w _ _ => ?_
    have hv := v.le_toInt
    have hw := w.le_toInt
    omega
  case double => exact numbering_double.sortedCode fun _ _ => doublePlace_lt_iff

/-- The negative zero, the least subnormal number and the infinities are in their places, and the
bytes of a negative word are read with others behind them. -/
theorem numbers_sorted_sample :
    before (ofDouble .negativeZero) (ofDouble .zero) = true ∧
      Double.Before .zero ⟨1⟩ ∧
      Double.Before ⟨0xfff0000000000000⟩ ⟨0xffefffffffffffff⟩ ∧
      toInt32? ([127, 255, 255, 255] ++ [7]) = some (-1) ∧
      toInt32? [127, 255, 255] = none := by
  obtain ⟨-, -, hint, -, hdouble, -⟩ := numbers_sorted
  have himage : ofInt32 (-1) = [127, 255, 255, 255] := by decide
  refine ⟨(hdouble.before_iff _ _ (by decide) (by decide)).2 (.inr ⟨rfl, rfl⟩),
    (hdouble.before_iff _ _ (by decide) (by decide)).1 (by decide),
    (hdouble.before_iff _ _ (by decide) (by decide)).1 (by decide), ?_, hint.short _ (by decide)⟩
  rw [← himage]
  exact hint.read_image (-1) [7]

end Ordered

end EdgeDeletion
