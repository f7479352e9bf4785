/-
The order of doubles and the order of their images.

A double stands for a number or for one of the two infinities.  The place of a double
counts its bits so that doubles without NaNs stand in the order of what they stand for,
the negative zero just before the positive one.

* `Double.value` — what a double stands for, as an extended real;
* `Double.size_lt_iff` — magnitudes compare like what they stand for, up to infinity;
* `Ordered.doublePlace_lt_iff` — places compare like doubles;
* `Ordered.numbering_double` — every number of 64 bits is the place of one double;
* `Ordered.before_ofDouble` — images compare like doubles.
-/
import EdgeDeletion.Double.Decimal
import EdgeDeletion.Proofs.ByteOrder
import Mathlib.Data.EReal.Operations

namespace EdgeDeletion

open KeyOrder (before)

namespace Double

def negativeZero : Double := ⟨0x8000000000000000⟩

/-! ### What doubles stand for -/

/-- What a double without its sign stands for.  A NaN stands for nothing, so its case is
without meaning. -/
noncomputable def size (d : Double) : EReal :=
  if d.isInfinite then ⊤
  else (((Binary.ofDouble d).mantissa * (2 : ℝ) ^ (Binary.ofDouble d).exponent : ℝ) : EReal)

/-- What a double stands for: a number, or an infinity. -/
noncomputable def value (d : Double) : EReal := if d.isNegative then -d.size else d.size

/-- Doubles compare by what they stand for, and the negative zero comes before the positive
one. -/
def Before (a b : Double) : Prop := a.value < b.value ∨ (a = negativeZero ∧ b = zero)

/-! ### Magnitudes -/

/-- A magnitude below infinity, counted in the least positive double. -/
def units (magnitude : Nat) : Nat :=
  if magnitude / 0x10000000000000 = 0 then magnitude % 0x10000000000000
  else (0x10000000000000 + magnitude % 0x10000000000000) *
    Nat.pow 2 (magnitude / 0x10000000000000 - 1)

/-- The next magnitude stands for more, within an exponent and from one exponent to the next. -/
theorem units_lt_succ (m : Nat) : units m < units (m + 1) := by
  have hpow : ∀ k, 0 < Nat.pow 2 k := fun k => Nat.pow_pos (by decide)
  by_cases hlast : m % 0x10000000000000 + 1 = 0x10000000000000
  · -- the fraction starts again under the next exponent
    have hfield : (m + 1) / 0x10000000000000 = m / 0x10000000000000 + 1 := by omega
    have hfraction : (m + 1) % 0x10000000000000 = 0 := by omega
    rw [units, units, hfield, hfraction, if_neg (Nat.succ_ne_zero _), Nat.add_sub_cancel]
    by_cases hzero : m / 0x10000000000000 = 0
    · rw [if_pos hzero, hzero]
      show _ < (0x10000000000000 + 0) * 1
      omega
    · obtain ⟨k, hk⟩ := Nat.exists_eq_succ_of_ne_zero hzero
      rw [if_neg hzero, hk, Nat.succ_sub_one]
      show _ < (0x10000000000000 + 0) * (Nat.pow 2 k * 2)
      have := hpow k
      calc (0x10000000000000 + m % 0x10000000000000) * Nat.pow 2 k
          < (0x10000000000000 * 2) * Nat.pow 2 k := Nat.mul_lt_mul_of_pos_right (by omega) this
        _ = (0x10000000000000 + 0) * (Nat.pow 2 k * 2) := by
          rw [Nat.add_zero, Nat.mul_assoc, Nat.mul_comm 2]
  · have hfield : (m + 1) / 0x10000000000000 = m / 0x10000000000000 := by omega
    have hfraction : (m + 1) % 0x10000000000000 = m % 0x10000000000000 + 1 := by omega
    rw [units, units, hfield, hfraction]
    by_cases hzero : m / 0x10000000000000 = 0
    · rw [if_pos hzero, if_pos hzero]
      exact Nat.lt_succ_self _
    · rw [if_neg hzero, if_neg hzero]
      exact Nat.mul_lt_mul_of_pos_right (by omega) (hpow _)

theorem units_strictMono : StrictMono units := strictMono_nat_of_lt_succ units_lt_succ

variable {a b d : Double}

/-- The mantissa and the exponent of a double make up the units of its magnitude. -/
theorem size_of_finite (h : d.isInfinite = false) :
    d.size = ((units d.magnitude * (2 : ℝ) ^ (-1074 : ℤ) : ℝ) : EReal) := by
  rw [size, h, if_neg Bool.false_ne_true]
  congr 1
  unfold Binary.ofDouble units
  by_cases hzero : d.magnitude / 0x10000000000000 = 0
  · simp only [hzero, if_true]
  · simp only [hzero, if_false]
    obtain ⟨k, hk⟩ := Nat.exists_eq_succ_of_ne_zero hzero
    have hexponent : ((k.succ : ℕ) : ℤ) - 1075 = (k : ℤ) + (-1074) := by omega
    rw [hk, Nat.succ_sub_one, hexponent, zpow_add₀ two_ne_zero, zpow_natCast]
    push_cast
    show _ = (_ : ℝ) * ((2 ^ k : ℕ) : ℝ) * _
    push_cast
    ring

theorem size_of_infinite (h : d.isInfinite = true) : d.size = ⊤ := if_pos h

/-- The magnitudes of doubles compare like what they stand for, up to infinity. -/
theorem size_lt_iff (ha : a.isNaN = false) (hb : b.isNaN = false) :
    a.size < b.size ↔ a.magnitude < b.magnitude := by
  have hstep : (0 : ℝ) < (2 : ℝ) ^ (-1074 : ℤ) := zpow_pos two_pos _
  simp only [isNaN, decide_eq_false_iff_not] at ha hb
  cases hia : a.isInfinite with
  | true =>
    -- nothing but a NaN has a magnitude above that of infinity
    have hma : a.magnitude = infinityMagnitude := by simpa [isInfinite] using hia
    rw [size_of_infinite hia]
    simp only [not_top_lt, false_iff]
    omega
  | false =>
    have hma : a.magnitude ≠ infinityMagnitude := by simpa [isInfinite] using hia
    cases hib : b.isInfinite with
    | true =>
      have hmb : b.magnitude = infinityMagnitude := by simpa [isInfinite] using hib
      rw [size_of_finite hia, size_of_infinite hib]
      simp only [EReal.coe_lt_top, true_iff]
      omega
    | false =>
      rw [size_of_finite hia, size_of_finite hib, EReal.coe_lt_coe_iff,
        mul_lt_mul_iff_of_pos_right hstep, Nat.cast_lt, units_strictMono.lt_iff_lt]

theorem size_nonneg (d : Double) : 0 ≤ d.size := by
  cases h : d.isInfinite with
  | true =>
    rw [size_of_infinite h]
    exact le_top
  | false =>
    rw [size_of_finite h]
    exact EReal.coe_nonneg.2 (mul_nonneg (Nat.cast_nonneg _) (zpow_nonneg two_pos.le _))

theorem size_pos (hd : d.isNaN = false) (h : d.magnitude ≠ 0) : 0 < d.size := by
  have hzero : zero.size = 0 := by
    rw [size_of_finite (by decide)]
    simp [zero, magnitude, units]
  rw [← hzero]
  exact (size_lt_iff (by decide) hd).2 (Nat.pos_of_ne_zero h)

theorem magnitude_lt (d : Double) : d.magnitude < 0x8000000000000000 :=
  Nat.mod_lt _ (by decide)

/-- The bits of a double are its sign and its magnitude. -/
theorem toNat_bits (d : Double) : d.bits.toNat
    = (if d.isNegative then 0x8000000000000000 else 0) + d.magnitude := by
  have := d.bits.toNat_lt
  simp only [isNegative, magnitude, decide_eq_true_eq]
  split <;> omega

theorem eq_of_magnitude (hsign : a.isNegative = b.isNegative) (h : a.magnitude = b.magnitude) :
    a = b := by
  have ha := toNat_bits a
  have hb := toNat_bits b
  rw [hsign, h] at ha
  obtain ⟨bits⟩ := a
  obtain ⟨bits'⟩ := b
  exact congrArg Double.mk (UInt64.toNat_inj.1 (ha.trans hb.symm))

end Double

/-! ### Places -/

namespace Ordered

open Double (Before)

variable {a b : Double}

/-- A double with a sign comes before one without. -/
theorem before_of_signs (ha : a.isNaN = false) (hb : b.isNaN = false)
    (hsa : a.isNegative = true) (hsb : b.isNegative = false) : a.Before b := by
  have hvalues : a.value = -a.size ∧ b.value = b.size := by simp [Double.value, hsa, hsb]
  have hle : -a.size ≤ 0 := by simpa using a.size_nonneg
  by_cases hza : a.magnitude = 0
  · by_cases hzb : b.magnitude = 0
    · exact .inr ⟨Double.eq_of_magnitude hsa hza, Double.eq_of_magnitude hsb hzb⟩
    · refine .inl ?_
      rw [hvalues.1, hvalues.2]
      exact hle.trans_lt (Double.size_pos hb hzb)
  · refine .inl ?_
    rw [hvalues.1, hvalues.2]
    exact (show -a.size < 0 by simpa using Double.size_pos ha hza).trans_le b.size_nonneg

/-- Without NaNs places compare like doubles. -/
theorem doublePlace_lt_iff (ha : a.isNaN = false) (hb : b.isNaN = false) :
    doublePlace a < doublePlace b ↔ a.Before b := by
  have hna := a.toNat_bits
  have hnb := b.toNat_bits
  have hma := a.magnitude_lt
  have hmb := b.magnitude_lt
  have hneg : Double.negativeZero.isNegative = true := rfl
  have hpos : Double.zero.isNegative = false := rfl
  cases hsa : a.isNegative <;> cases hsb : b.isNegative <;>
    simp only [hsa, hsb, if_true, Bool.false_eq_true, if_false] at hna hnb
  case false.false =>
    have hzero : ¬(a = Double.negativeZero ∧ b = Double.zero) := fun h => by simp [h.1, hneg] at hsa
    simp only [doublePlace, Before, Double.value, hsa, hsb, Bool.false_eq_true, if_false, hzero,
      or_false, Double.size_lt_iff ha hb]
    omega
  case false.true =>
    have hle : -b.size ≤ a.size := le_trans (by simpa using b.size_nonneg) a.size_nonneg
    have hzero : ¬(a = Double.negativeZero ∧ b = Double.zero) := fun h => by simp [h.1, hneg] at hsa
    simp only [doublePlace, Before, Double.value, hsa, hsb, Bool.false_eq_true, if_true, if_false,
      hzero, or_false, hle.not_gt, iff_false]
    omega
  case true.false =>
    simp only [before_of_signs ha hb hsa hsb, iff_true, doublePlace, hsa, hsb, if_true,
      Bool.false_eq_true, if_false]
    omega
  case true.true =>
    have hzero : ¬(a = Double.negativeZero ∧ b = Double.zero) := fun h => by simp [h.2, hpos] at hsb
    simp only [doublePlace, Before, Double.value, hsa, hsb, if_true, hzero, or_false,
      EReal.neg_lt_neg_iff, Double.size_lt_iff hb ha]
    omega

theorem doublePlace_lt (d : Double) : doublePlace d < 0x10000000000000000 := by
  have := d.toNat_bits
  have := d.magnitude_lt
  rw [doublePlace]
  split <;> simp_all <;> omega

theorem toNat_bits_doubleAt {place : Nat} (h : place < 0x10000000000000000) :
    (doubleAt place).bits.toNat = if place < 0x8000000000000000 then 0xffffffffffffffff - place
      else place - 0x8000000000000000 := by
  rw [doubleAt, UInt64.toNat_ofNat']
  split <;> omega

/-- Places number the doubles. -/
theorem numbering_double : Numbering 8 doublePlace doubleAt where
  lt := doublePlace_lt
  value_number := doubleAt_doublePlace
  number_value place hplace := by
    have hlt : place < 0x10000000000000000 := hplace
    have hbits := toNat_bits_doubleAt hlt
    rw [doublePlace, Double.isNegative]
    simp only [decide_eq_true_eq]
    split at hbits <;> split <;> omega

/-- Without NaNs images compare like doubles. -/
theorem before_ofDouble (ha : a.isNaN = false) (hb : b.isNaN = false) :
    before (ofDouble a) (ofDouble b) = true ↔ a.Before b := by
  rw [ofDouble, ofDouble, numbering_double.before_image, ← doublePlace_lt_iff ha hb]
  exact decide_eq_true_iff

theorem ofDouble_inj (h : ofDouble a = ofDouble b) : a = b := numbering_double.inj h

end Ordered

end EdgeDeletion
