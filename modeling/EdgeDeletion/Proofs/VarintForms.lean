/-
The spellings of a variable-length number.

A number may end in digits that are zero: eighty and zero say zero in two bytes.  So a
number has several spellings, and the reader takes each that has at most ten bytes and a
value of 64 bits.

* `decode_of_spelling`, `spelling_of_decode` — every spelling is read, and nothing else;
* `length_digits_le` — no spelling is shorter than the digits that are written;
* `shortSpelling_iff` — they are the only spelling without needless digits.
-/
import EdgeDeletion.Bytes.Varint

namespace EdgeDeletion.Varint

/-- The bytes are digits of the number in base 128, the low one first.  The last byte is the one
without its high bit. -/
inductive Spells : Nat → Bytes → Prop
  | last {b : UInt8} (hb : b.toNat < 128) : Spells b.toNat [b]
  | more {b : UInt8} {n : Nat} {bs : Bytes} (hb : 128 ≤ b.toNat) (h : Spells n bs) :
    Spells (b.toNat % 128 + 128 * n) (b :: bs)

variable {n : Nat} {s : Bytes}

theorem Spells.ne_nil (h : Spells n s) : s ≠ [] := by
  cases h <;> simp

/-! ### Reading a spelling -/

/-- A number is read from its spelling, and what follows it is left. -/
theorem decodeWithin_of_spells {count : Nat} (rest : Bytes) (h : Spells n s)
    (hlen : s.length ≤ count + 1) (hn : n < 2 * Nat.pow 128 count) :
    decodeWithin (count + 1) (s ++ rest) = (some n, rest) := by
  induction h generalizing count with
  | @last b hb =>
    have hfits : ¬(count = 0 ∧ 1 < b.toNat % 128) := by
      rintro ⟨rfl, hb'⟩
      have : b.toNat < 2 := hn
      omega
    rw [List.singleton_append, decodeWithin, if_neg hfits, if_pos hb]
  | @more b n bs hb h ih =>
    -- a byte follows, so this one is not the tenth
    have hpos : 0 < bs.length := List.length_pos_iff.2 h.ne_nil
    rw [List.length_cons] at hlen
    obtain ⟨count, rfl⟩ : ∃ c, count = c + 1 := ⟨count - 1, by omega⟩
    have hn' : n < 2 * Nat.pow 128 count := by
      have : b.toNat % 128 + 128 * n < 2 * (Nat.pow 128 count * 128) := hn
      omega
    rw [List.cons_append, decodeWithin, if_neg (by omega), if_neg (by omega),
      ih (by omega) hn']
    rfl

/-- What is read is a spelling. -/
theorem spells_of_decodeWithin {count : Nat} {bs rest : Bytes}
    (h : decodeWithin (count + 1) bs = (some n, rest)) :
    ∃ s, bs = s ++ rest ∧ Spells n s ∧ s.length ≤ count + 1 ∧ n < 2 * Nat.pow 128 count := by
  induction count generalizing n bs with
  | zero =>
    cases bs with
    | nil => simp [decodeWithin] at h
    | cons b bs =>
      rw [decodeWithin] at h
      split at h
      · simp at h
      · rename_i hfits
        split at h
        · rename_i hb
          simp only [Prod.mk.injEq, Option.some.injEq] at h
          obtain ⟨rfl, rfl⟩ := h
          exact ⟨[b], rfl, .last hb, Nat.le_refl _, by
            show b.toNat < 2
            omega⟩
        · simp [decodeWithin] at h
  | succ count ih =>
    cases bs with
    | nil => simp [decodeWithin] at h
    | cons b bs =>
      rw [decodeWithin, if_neg (by omega)] at h
      have hpow : 0 < Nat.pow 128 count := Nat.pow_pos (by decide)
      split at h
      · rename_i hb
        simp only [Prod.mk.injEq, Option.some.injEq] at h
        obtain ⟨rfl, rfl⟩ := h
        refine ⟨[b], rfl, .last hb, by simp, ?_⟩
        show b.toNat < 2 * (Nat.pow 128 count * 128)
        omega
      · rename_i hb
        rcases hhigh : decodeWithin (count + 1) bs with ⟨_ | high, rest'⟩
        · simp [hhigh] at h
        · simp only [hhigh, Option.map_some, Prod.mk.injEq, Option.some.injEq] at h
          obtain ⟨rfl, rfl⟩ := h
          obtain ⟨s, rfl, hs, hlen, hlt⟩ := ih hhigh
          refine ⟨b :: s, rfl, .more (by omega) hs, by rw [List.length_cons]; omega, ?_⟩
          show _ < 2 * (Nat.pow 128 count * 128)
          omega

/-- The bytes spell a number of 64 bits, and they are not more than the reader takes. -/
def Spelling (n : Nat) (s : Bytes) : Prop := Spells n s ∧ s.length ≤ 10 ∧ n < UInt64.size

theorem Spelling.toNat_ofNat (h : Spelling n s) : (UInt64.ofNat n).toNat = n := by
  rw [UInt64.toNat_ofNat']
  exact Nat.mod_eq_of_lt h.2.2

/-- Every spelling of a number is read. -/
theorem decode_of_spelling (h : Spelling n s) (rest : Bytes) :
    decode (s ++ rest) = (some (UInt64.ofNat n), rest) := by
  rw [decode, decodeWithin_of_spells rest h.1 h.2.1 h.2.2]
  rfl

/-- Nothing but a spelling is read. -/
theorem spelling_of_decode {bs rest : Bytes} {v : UInt64} (h : decode bs = (some v, rest)) :
    ∃ s, bs = s ++ rest ∧ Spelling v.toNat s := by
  rcases hread : decodeWithin 10 bs with ⟨_ | n, rest'⟩
  · simp [decode, hread] at h
  · simp only [decode, hread, Option.map_some, Prod.mk.injEq, Option.some.injEq] at h
    obtain ⟨rfl, rfl⟩ := h
    obtain ⟨s, rfl, hs, hlen, hn⟩ := spells_of_decodeWithin hread
    have hspelling : Spelling n s := ⟨hs, hlen, hn⟩
    exact ⟨s, rfl, hspelling.toNat_ofNat.symm ▸ hspelling⟩

/-! ### The shortest spelling -/

theorem spells_digits (n : Nat) : Spells n (digits n) := by
  induction n using digits.induct with
  | case1 n hn =>
    have hb : (UInt8.ofNat n).toNat = n := by rw [UInt8.toNat_ofNat']; omega
    have h : Spells (UInt8.ofNat n).toNat [UInt8.ofNat n] := .last (by omega)
    rw [digits, if_pos hn]
    rwa [hb] at h
  | case2 n hn ih =>
    have hb : (UInt8.ofNat (n % 128 + 128)).toNat = n % 128 + 128 := by
      rw [UInt8.toNat_ofNat']; omega
    have h : Spells _ (UInt8.ofNat (n % 128 + 128) :: digits (n / 128)) := .more (by omega) ih
    have hvalue : (UInt8.ofNat (n % 128 + 128)).toNat % 128 + 128 * (n / 128) = n := by omega
    rw [digits, if_neg hn]
    rwa [hvalue] at h

/-- The digits of a number above its lowest digit. -/
theorem digits_more {b : UInt8} (hb : 128 ≤ b.toNat) (hn : n ≠ 0) :
    digits (b.toNat % 128 + 128 * n) = b :: digits n := by
  have hlt := b.toNat_lt
  have hlow : (b.toNat % 128 + 128 * n) % 128 + 128 = b.toNat := by omega
  have hhigh : (b.toNat % 128 + 128 * n) / 128 = n := by omega
  rw [digits, if_neg (by omega), hlow, hhigh, UInt8.ofNat_toNat]

theorem digits_of_lt (hn : n < 128) : digits n = [UInt8.ofNat n] := by
  rw [digits, if_pos hn]

/-- No spelling is shorter than the one that is written. -/
theorem length_digits_le (h : Spells n s) : (digits n).length ≤ s.length := by
  induction h with
  | last hb => rw [digits_of_lt hb]; exact Nat.le_refl 1
  | @more b n bs hb h ih =>
    by_cases hn : n = 0
    · subst hn
      rw [digits_of_lt (by omega)]
      simp
    · rw [digits_more hb hn, List.length_cons, List.length_cons]
      omega

/-- A number takes at most ten bytes. -/
theorem length_encode_le (v : UInt64) : (encode v).length ≤ 10 := by
  obtain ⟨s, hs, -, hlen, -⟩ := spelling_of_decode (decode_encode v [])
  rwa [List.append_cancel_right hs]

/-- Spellings without needless digits: a lone zero, or digits whose last one is not zero. -/
def IsShort (s : Bytes) : Prop := s = [0] ∨ s.getLast? ≠ some 0

/-- A spelling ends like the digits behind the first one. -/
theorem Spells.getLast?_cons (h : Spells n s) (b : UInt8) : (b :: s).getLast? = s.getLast? := by
  obtain ⟨c, cs, rfl⟩ := List.exists_cons_of_ne_nil h.ne_nil
  exact List.getLast?_cons_cons

/-- A zero is spelled with zeros only, and so it ends in one. -/
theorem Spells.getLast?_zero (h : Spells n s) (hn : n = 0) : s.getLast? = some 0 := by
  induction h with
  | @last b hb =>
    have : b = 0 := UInt8.toNat_inj.1 hn
    simp [this]
  | @more b n bs hb h ih => rw [h.getLast?_cons, ih (by omega)]

/-- What is written is the only spelling without needless digits. -/
theorem eq_digits_iff (h : Spells n s) : s = digits n ↔ IsShort s := by
  induction h with
  | @last b hb =>
    rw [digits_of_lt hb, UInt8.ofNat_toNat]
    by_cases h0 : b = 0 <;> simp [IsShort, h0]
  | @more b n bs hb h ih =>
    have hne := h.ne_nil
    by_cases hn : n = 0
    · -- digits of a zero follow: they are needless, and the last of them is a zero
      have hlast := (h.getLast?_cons b).trans (h.getLast?_zero hn)
      have hlong : (b :: bs) ≠ digits (b.toNat % 128 + 128 * n) := by
        rw [hn, digits_of_lt (by omega)]
        simp [hne]
      simp [IsShort, hlast, hlong, hne]
    · have hzero : bs ≠ [0] := by
        rintro rfl
        cases h with
        | last => exact hn rfl
        | more _ h' => exact h'.ne_nil rfl
      rw [digits_more hb hn, List.cons.injEq, ih]
      simp [IsShort, h.getLast?_cons, hzero, hne]

/-- A number is spelled without needless digits. -/
def ShortSpelling (n : Nat) (s : Bytes) : Prop := Spelling n s ∧ IsShort s

theorem shortSpelling_iff : ShortSpelling n s ↔ n < UInt64.size ∧ s = encode (UInt64.ofNat n) := by
  constructor
  · rintro ⟨h, hshort⟩
    refine ⟨h.2.2, ?_⟩
    rw [encode, h.toNat_ofNat]
    exact (eq_digits_iff h.1).2 hshort
  · rintro ⟨hn, rfl⟩
    have hlen := length_encode_le (UInt64.ofNat n)
    have hn' : (UInt64.ofNat n).toNat = n := by
      rw [UInt64.toNat_ofNat']
      exact Nat.mod_eq_of_lt hn
    rw [encode, hn'] at hlen ⊢
    exact ⟨⟨spells_digits n, hlen, hn⟩, (eq_digits_iff (spells_digits n)).1 rfl⟩

end EdgeDeletion.Varint
