/-
Byte strings in order.

The order of keys is lexicographic, and so is the order of tuples of components.  The
two meet here: a string that is put together from parts of fixed widths compares like
the tuple of its parts.

* `before_append` — strings whose fronts have one length compare like the pairs of
  front and rest;
* `before_of_length_eq` — strings of one length compare like the numbers they spell;
* `Numbering.before_image` — images compare like the numbers of their values;
* `before_ofUInt32`, `before_ofUInt64`, `before_ofInt32`, `before_ofInt64` — the
  images of numbers compare like the numbers;
* `before_deferral` — the keys of a log compare like their numbers.
-/
import EdgeDeletion.Proofs.KeyLayout

namespace EdgeDeletion

universe u v w

open KeyOrder (before)

namespace KeyOrder

/-! ### Tuples and appended strings -/

section Tuples

variable {α : Type u} {β : Type v} {γ : Type w} [KeyOrder α] [KeyOrder β] [KeyOrder γ]

theorem before_pair (a a' : α) (b b' : β) :
    before (a, b) (a', b') = (before a a' || (!before a' a && before b b')) := rfl

/-- With one first component the second one decides. -/
theorem before_pair_self (a : α) (b b' : β) : before (a, b) (a, b') = before b b' := by
  simp [before_pair, irrefl]

/-- It does not matter how a tuple is bracketed. -/
theorem before_pair_assoc (a a' : α) (b b' : β) (c c' : γ) :
    before ((a, b), c) ((a', b'), c') = before (a, b, c) (a', b', c') := by
  simp only [before_pair]
  cases before a a' <;> cases before a' a <;> cases before b b' <;> cases before b' b <;> rfl

theorem before_cons (a a' : α) (as as' : List α) :
    before (a :: as) (a' :: as') = before (a, as) (a', as') := rfl

/-- Strings whose fronts have one length compare like the pairs of front and rest. -/
theorem before_append : ∀ {as bs : List α}, as.length = bs.length → ∀ xs ys : List α,
    before (as ++ xs) (bs ++ ys) = before (as, xs) (bs, ys)
  | [], [], _, xs, ys => (before_pair_self ([] : List α) xs ys).symm
  | [], _ :: _, h, _, _ => by simp at h
  | _ :: _, [], h, _, _ => by simp at h
  | a :: as, b :: bs, h, xs, ys => by
    have ih := before_append (Nat.succ.inj h) xs ys
    calc before (a :: (as ++ xs)) (b :: (bs ++ ys))
        = before (a, as ++ xs) (b, bs ++ ys) := before_cons ..
      _ = before (a, as, xs) (b, bs, ys) := by rw [before_pair, before_pair, ih]
      _ = before ((a, as), xs) ((b, bs), ys) := (before_pair_assoc ..).symm
      _ = before (a :: as, xs) (b :: bs, ys) := rfl

end Tuples

end KeyOrder

/-! ### Images of numbers -/

namespace Bytes

/-- Numbers written with a remainder below the base compare by their quotients first. -/
theorem mul_add_lt_iff {base q q' r r' : Nat} (hr : r < base) (hr' : r' < base) :
    q * base + r < q' * base + r' ↔ q < q' ∨ (¬q' < q ∧ r < r') := by
  rcases Nat.lt_trichotomy q q' with h | rfl | h
  · have := Nat.mul_le_mul_right base (Nat.succ_le_of_lt h)
    rw [Nat.succ_mul] at this
    simp only [h, true_or, iff_true]
    omega
  · simp
  · have := Nat.mul_le_mul_right base (Nat.succ_le_of_lt h)
    rw [Nat.succ_mul] at this
    simp only [h, not_true_eq_false, false_and, or_false]
    omega

/-- Byte strings of one length compare like the numbers they spell. -/
theorem before_of_length_eq : ∀ {as bs : Bytes}, as.length = bs.length →
    before as bs = before (ofBigEndian as) (ofBigEndian bs)
  | [], [], _ => rfl
  | [], _ :: _, h => by simp at h
  | _ :: _, [], h => by simp at h
  | a :: as, b :: bs, h => by
    have hlen : as.length = bs.length := Nat.succ.inj h
    have ha := ofBigEndian_lt as
    have hb := ofBigEndian_lt bs
    rw [← hlen] at hb
    -- the first digits decide, and where they are equal the rest does
    have hnum : a.toNat * Nat.pow 256 as.length + ofBigEndian as <
          b.toNat * Nat.pow 256 as.length + ofBigEndian bs ↔
        a.toNat < b.toNat ∨ (¬b.toNat < a.toNat ∧ ofBigEndian as < ofBigEndian bs) :=
      mul_add_lt_iff ha hb
    rw [KeyOrder.before_cons, KeyOrder.before_pair, before_of_length_eq hlen, ofBigEndian,
      ofBigEndian, ← hlen]
    simp only [before, hnum, Bool.decide_or, Bool.decide_and, decide_not]

theorem before_bigEndian {w m n : Nat} (hm : m < Nat.pow 256 w) (hn : n < Nat.pow 256 w) :
    before (bigEndian w m) (bigEndian w n) = before m n := by
  rw [before_of_length_eq (by simp), ofBigEndian_bigEndian hm, ofBigEndian_bigEndian hn]

end Bytes

namespace Ordered

open Bytes

/-- Images compare like the numbers of their values. -/
theorem Numbering.before_image {α : Type} {w : Nat} {number : α → Nat} {value : Nat → α}
    (h : Numbering w number value) (v v' : α) :
    before (bigEndian w (number v)) (bigEndian w (number v')) = before (number v) (number v') :=
  before_bigEndian (h.lt v) (h.lt v')

theorem before_ofUInt32 (a b : UInt32) : before (ofUInt32 a) (ofUInt32 b) = before a b :=
  numbering_uInt32.before_image a b

theorem before_ofUInt64 (a b : UInt64) : before (ofUInt64 a) (ofUInt64 b) = before a b :=
  numbering_uInt64.before_image a b

/-- Shifting two signed numbers up to zero keeps their order. -/
theorem before_shifted {a b shift : Int} (ha : 0 ≤ a + shift) (hb : 0 ≤ b + shift) :
    before (a + shift).toNat (b + shift).toNat = before a b :=
  decide_eq_decide.2 (by omega)

theorem before_ofInt32 (a b : Int32) : before (ofInt32 a) (ofInt32 b) = before a b := by
  have ha := a.le_toInt
  have hb := b.le_toInt
  exact (numbering_int32.before_image a b).trans (before_shifted (by omega) (by omega))

theorem before_ofInt64 (a b : Int64) : before (ofInt64 a) (ofInt64 b) = before a b := by
  have ha := a.le_toInt
  have hb := b.le_toInt
  exact (numbering_int64.before_image a b).trans (before_shifted (by omega) (by omega))

end Ordered

/-- The keys of the log of a partition are in the order of their numbers. -/
theorem Key.before_deferral (part : PartId) (a b : UInt64) :
    before (deferral part a) (deferral part b) = before a b := by
  have hlen : (Ordered.ofUInt64 a).length = (Ordered.ofUInt64 b).length := by
    simp
  rw [deferral, deferral, List.append_assoc, List.append_assoc, KeyOrder.before_append rfl,
    KeyOrder.before_pair_self, KeyOrder.before_append hlen, KeyOrder.before_pair,
    KeyOrder.irrefl [deferralByte], Bool.and_false, Bool.or_false, Ordered.before_ofUInt64]

end EdgeDeletion
