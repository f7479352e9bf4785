/-
Variable-length numbers read into words.

The bytes are read one by one at a position, in ten rounds at most.  The seven low bits of a
byte are shifted to their place in a word of 64 bits and joined to those that are there
already.  A shift that pushed a bit out of the word would be a fault, like a read out of range,
and there is none: ten bytes have seventy bits, but a tenth byte with more than one of them is
refused before it is shifted.

* `spells_iff` — a spelling has digits with their high bits set and a last one without;
* `toNat_join` — bits that are shifted beyond those of a word are added to it;
* `reads_word` — the reader of words stops where the reader of the front does, with its number;
* `varints_exact` — which bytes are a number, which one, and where the reader stops.
-/
import EdgeDeletion.Proofs.Positions
import EdgeDeletion.Proofs.VarintForms

namespace EdgeDeletion

namespace Varint

/-- The number with the given digits in base 128, the low one first.  High bits do not count. -/
def value : Bytes → Nat
  | [] => 0
  | b :: bs => b.toNat % 128 + 128 * value bs

/-- Bytes that start with a number of at most ten bytes: some with their high bits set, and a last
one without. -/
structure Starts (bs front : Bytes) (last : UInt8) : Prop where
  isPrefix : front ++ [last] <+: bs
  few : front.length < 10
  high : ∀ b ∈ front, 128 ≤ b.toNat
  low : last.toNat < 128

theorem spells_iff {n : Nat} {s : Bytes} : Spells n s ↔
    ∃ front last, s = front ++ [last] ∧ (∀ b ∈ front, 128 ≤ b.toNat) ∧ last.toNat < 128 ∧
      n = value s := by
  constructor
  · intro h
    induction h with
    | @last b hb => exact ⟨[], b, rfl, by simp, hb, by simp [value, Nat.mod_eq_of_lt hb]⟩
    | @more b n bs hb h ih =>
      obtain ⟨front, last, rfl, hhigh, hlow, rfl⟩ := ih
      exact ⟨b :: front, last, rfl, List.forall_mem_cons.2 ⟨hb, hhigh⟩, hlow, rfl⟩
  · rintro ⟨front, last, rfl, hhigh, hlow, rfl⟩
    induction front with
    | nil =>
      have hvalue : value [last] = last.toNat := by simp [value, Nat.mod_eq_of_lt hlow]
      rw [List.nil_append, hvalue]
      exact .last hlow
    | cons b front ih =>
      obtain ⟨hb, hhigh⟩ := List.forall_mem_cons.1 hhigh
      exact .more hb (ih hhigh)

/-- What is read from the front is the number that the bytes start with. -/
theorem decode_eq_some_iff {bs rest : Bytes} {v : UInt64} : decode bs = (some v, rest) ↔
    ∃ front last, Starts bs front last ∧ v.toNat = value (front ++ [last]) ∧
      rest = bs.drop (front.length + 1) := by
  constructor
  · intro h
    obtain ⟨s, rfl, hspells, hlen, -⟩ := spelling_of_decode h
    obtain ⟨front, last, rfl, hhigh, hlow, hvalue⟩ := spells_iff.1 hspells
    rw [List.length_append, List.length_singleton] at hlen
    refine ⟨front, last, ⟨List.prefix_append .., by omega, hhigh, hlow⟩, hvalue, ?_⟩
    exact (List.drop_left' (by simp)).symm
  · rintro ⟨front, last, ⟨⟨rest', rfl⟩, hfew, hhigh, hlow⟩, hvalue, rfl⟩
    have hspells : Spells v.toNat (front ++ [last]) :=
      spells_iff.2 ⟨front, last, rfl, hhigh, hlow, hvalue⟩
    have hlen : (front ++ [last]).length ≤ 10 := by
      rw [List.length_append, List.length_singleton]
      omega
    rw [decode_of_spelling ⟨hspells, hlen, v.toNat_lt⟩, UInt64.ofNat_toNat,
      List.drop_left' (by simp)]

end Varint

namespace Scan

open Varint

/-- Shifts a word to the left.  From a shift by the width of the word, or one that pushes a bit out
of it, nothing comes. -/
def shiftLeft {ε : Type} (w : UInt64) (n : Nat) : Scan ε UInt64 := fun c =>
  if n < 64 ∧ w.toNat * Nat.pow 2 n < UInt64.size then some (.ok (w <<< UInt64.ofNat n), c)
  else none

/-- Reads a number in at most `count` rounds.  Its bits go to the left of those of `low`, which
are `shift` in number. -/
def wordWithin (bs : Bytes) : (count shift : Nat) → (low : UInt64) → Scan Unit UInt64
  | 0, _, _ => fail ()
  | n + 1, shift, low => do
    let b ← next bs ()
    let digit := (b &&& 0x7f).toUInt64
    if n = 0 ∧ 1 < digit then fail ()
    else
      let high ← shiftLeft digit shift
      if b &&& 0x80 = 0 then pure (low ||| high) else wordWithin bs n (shift + 7) (low ||| high)

def word (bs : Bytes) : Scan Unit UInt64 := wordWithin bs 10 0 0

/-! ### Bits -/

theorem toNat_digit (b : UInt8) : (b &&& 0x7f).toUInt64.toNat = b.toNat % 128 := by
  rw [UInt8.toNat_toUInt64, UInt8.toNat_and]
  exact Nat.and_two_pow_sub_one_eq_mod b.toNat 7

theorem highBit_eq_zero_iff (b : UInt8) : b &&& 0x80 = 0 ↔ b.toNat < 128 := by
  have hbytes : ∀ n : Fin 256, n.val &&& 128 = 0 ↔ n.val < 128 := by decide +kernel
  rw [← UInt8.toNat_inj, UInt8.toNat_and]
  exact hbytes ⟨b.toNat, b.toNat_lt⟩

/-- Bits that are shifted to the left of those of a word are added to it. -/
theorem toNat_join {low digit : UInt64} {n : Nat} (hn : n < 64) (hlow : low.toNat < Nat.pow 2 n)
    (hdigit : digit.toNat * Nat.pow 2 n < UInt64.size) :
    (low ||| digit <<< UInt64.ofNat n).toNat = low.toNat + Nat.pow 2 n * digit.toNat := by
  have hshift : (digit <<< UInt64.ofNat n).toNat = Nat.pow 2 n * digit.toNat := by
    have hn' : (UInt64.ofNat n).toNat % 64 = n := by
      rw [UInt64.toNat_ofNat']
      omega
    rw [UInt64.toNat_shiftLeft, hn', Nat.shiftLeft_eq, Nat.mul_comm]
    exact Nat.mod_eq_of_lt (by rw [Nat.mul_comm]; exact hdigit)
  rw [UInt64.toNat_or, hshift, Nat.or_comm, Nat.add_comm]
  exact (Nat.two_pow_add_eq_or_of_lt hlow digit.toNat).symm

/-! ### Reading words -/

theorem bind_of_ok {ε α β : Type} {m : Scan ε α} {k : α → Scan ε β} {a : α} {c c' : Cursor}
    (h : m c = some (.ok a, c')) : (m >>= k) c = k a c' := by
  simp only [Bind.bind, h]

theorem shiftLeft_of_fits {ε : Type} {w : UInt64} {n : Nat} (hn : n < 64)
    (hw : w.toNat * Nat.pow 2 n < UInt64.size) (c : Cursor) :
    (shiftLeft w n : Scan ε UInt64) c = some (.ok (w <<< UInt64.ofNat n), c) := by
  rw [shiftLeft, if_pos ⟨hn, hw⟩]

theorem next_of_drop {ε : Type} {bs rest : Bytes} {i r : Nat} {b : UInt8} (e : ε)
    (h : bs.drop i = b :: rest) :
    next bs e ⟨i, r⟩ = some (.ok b, ⟨i + 1, r⟩) ∧ i < bs.length ∧ bs.drop (i + 1) = rest := by
  have hlt : i < bs.length := by
    have hlen := congrArg List.length h
    rw [List.length_drop, List.length_cons] at hlen
    omega
  rw [List.drop_eq_getElem_cons hlt, List.cons.injEq] at h
  refine ⟨?_, hlt, h.2⟩
  simp [next, Bind.bind, position, hlt, element, h.1, moveTo, Pure.pure]

theorem next_of_end {ε : Type} {bs : Bytes} {i r : Nat} (e : ε) (h : bs.drop i = []) :
    next bs e ⟨i, r⟩ = some (.error e, ⟨i, r⟩) := by
  have hge := List.drop_eq_nil_iff.1 h
  have hnot : ¬i < bs.length := by omega
  simp [next, Bind.bind, position, hnot, fail]

/-- A digit fits where it is put: after nine rounds there is place for one bit, and a digit of more
bits is refused there. -/
theorem digit_fits {b : UInt8} {n i : Nat} (hround : i + (n + 1) = 10)
    (hlast : ¬(n = 0 ∧ 1 < b.toNat % 128)) :
    b.toNat % 128 * Nat.pow 2 (7 * i) < UInt64.size := by
  by_cases hn : n = 0
  · obtain rfl : i = 9 := by omega
    have hpow : Nat.pow 2 (7 * 9) = 0x8000000000000000 := rfl
    rw [hpow]
    show _ < 0x10000000000000000
    omega
  · have hpow : Nat.pow 2 (7 * i) ≤ Nat.pow 2 56 := Nat.pow_le_pow_right (by decide) (by omega)
    calc b.toNat % 128 * Nat.pow 2 (7 * i)
        ≤ 127 * Nat.pow 2 56 := Nat.mul_le_mul (by omega) hpow
      _ < UInt64.size := by decide

section Rounds

variable {bs rest : Bytes} {b : UInt8} {pos r n i : Nat} {low : UInt64}

/-- A last digit of more than one bit is refused. -/
theorem wordWithin_of_large (hdrop : bs.drop pos = b :: rest) (hlast : n = 0 ∧ 1 < b.toNat % 128) :
    wordWithin bs (n + 1) (7 * i) low ⟨pos, r⟩ = some (.error (), ⟨pos + 1, r⟩) := by
  have hlarge : n = 0 ∧ 1 < (b &&& 0x7f).toUInt64 := by
    rwa [UInt64.lt_iff_toNat_lt, toNat_digit]
  rw [wordWithin, bind_of_ok (next_of_drop () hdrop).1, if_pos hlarge]
  rfl

/-- Every other digit is joined to the bits that are there, and none of its own is lost. -/
theorem wordWithin_of_fits (hdrop : bs.drop pos = b :: rest) (hround : i + (n + 1) = 10)
    (hlow : low.toNat < Nat.pow 2 (7 * i)) (hlast : ¬(n = 0 ∧ 1 < b.toNat % 128)) :
    ∃ low' : UInt64, low'.toNat = low.toNat + Nat.pow 2 (7 * i) * (b.toNat % 128) ∧
      wordWithin bs (n + 1) (7 * i) low ⟨pos, r⟩ =
        if b.toNat < 128 then some (.ok low', ⟨pos + 1, r⟩)
        else wordWithin bs n (7 * (i + 1)) low' ⟨pos + 1, r⟩ := by
  have hsmall : ¬(n = 0 ∧ 1 < (b &&& 0x7f).toUInt64) := by
    rwa [UInt64.lt_iff_toNat_lt, toNat_digit]
  have hfits : (b &&& 0x7f).toUInt64.toNat * Nat.pow 2 (7 * i) < UInt64.size := by
    rw [toNat_digit]
    exact digit_fits hround hlast
  have hwidth : 7 * i < 64 := by omega
  refine ⟨low ||| (b &&& 0x7f).toUInt64 <<< UInt64.ofNat (7 * i), ?_, ?_⟩
  · rw [toNat_join hwidth hlow hfits, toNat_digit]
  · rw [wordWithin, bind_of_ok (next_of_drop () hdrop).1, if_neg hsmall,
      bind_of_ok (shiftLeft_of_fits hwidth hfits _)]
    by_cases hb : b.toNat < 128
    · rw [if_pos ((highBit_eq_zero_iff b).2 hb), if_pos hb]
      rfl
    · rw [if_neg fun hzero => hb ((highBit_eq_zero_iff b).1 hzero), if_neg hb]
      rfl

end Rounds

/-- The word that a number makes to the left of the bits of another word, if there is a number. -/
def leftOf (low : UInt64) (n : Nat) : Option Nat → Except Unit UInt64
  | some high => .ok (UInt64.ofNat (low.toNat + Nat.pow 2 n * high))
  | none => .error ()

/-- What was read in earlier rounds is kept, and what follows goes to its left. -/
theorem reads_wordWithin {bs : Bytes} {r : Nat} (count i pos : Nat) (low : UInt64)
    (hround : i + count = 10) (hlow : low.toNat < Nat.pow 2 (7 * i)) (hpos : pos ≤ bs.length) :
    ∃ stop ≤ bs.length, pos ≤ stop ∧ stop ≤ pos + count ∧
      bs.drop stop = (decodeWithin count (bs.drop pos)).2 ∧
      wordWithin bs count (7 * i) low ⟨pos, r⟩ =
        some (leftOf low (7 * i) (decodeWithin count (bs.drop pos)).1, ⟨stop, r⟩) := by
  induction count generalizing i pos low with
  | zero => exact ⟨pos, hpos, Nat.le_refl _, Nat.le_refl _, rfl, rfl⟩
  | succ n ih =>
    cases hdrop : bs.drop pos with
    | nil =>
      refine ⟨pos, hpos, Nat.le_refl _, Nat.le_add_right .., hdrop, ?_⟩
      simp only [wordWithin, Bind.bind, next_of_end () hdrop, decodeWithin, leftOf]
    | cons b rest =>
      obtain ⟨-, hlt, hrest⟩ := next_of_drop (r := r) () hdrop
      have hnext : pos + 1 ≤ pos + (n + 1) := by omega
      rw [decodeWithin]
      by_cases hlast : n = 0 ∧ 1 < b.toNat % 128
      · rw [if_pos hlast]
        exact ⟨pos + 1, hlt, Nat.le_succ pos, hnext, hrest, wordWithin_of_large hdrop hlast⟩
      · obtain ⟨low', hlow', hword⟩ := wordWithin_of_fits (r := r) hdrop hround hlow hlast
        rw [if_neg hlast]
        by_cases hb : b.toNat < 128
        · rw [if_pos hb] at hword ⊢
          refine ⟨pos + 1, hlt, Nat.le_succ pos, hnext, hrest, hword.trans ?_⟩
          rw [leftOf, ← Nat.mod_eq_of_lt hb, ← hlow', UInt64.ofNat_toNat]
        · rw [if_neg hb] at hword ⊢
          -- the digit stands below the bits of the next round, which are shifted seven bits more
          have hpow : Nat.pow 2 (7 * (i + 1)) = Nat.pow 2 (7 * i) * 128 := Nat.pow_add 2 (7 * i) 7
          have hdigit : Nat.pow 2 (7 * i) * (b.toNat % 128) ≤ Nat.pow 2 (7 * i) * 127 :=
            Nat.mul_le_mul_left _ (by omega)
          obtain ⟨stop, hstop, hfrom, hto, hleft, hrun⟩ :=
            ih (i + 1) (pos + 1) low' (by omega) (by omega) hlt
          rw [hrest] at hleft hrun
          refine ⟨stop, hstop, by omega, by omega, hleft, (hword.trans hrun).trans ?_⟩
          rcases decodeWithin n rest with ⟨_ | high, left⟩
          · rfl
          · simp only [Option.map_some, leftOf]
            rw [hlow', hpow, Nat.mul_add, Nat.mul_assoc, Nat.add_assoc]

/-- The reader of words gives what the reader of the front gives, and stands where the other one
has left off. -/
theorem reads_word {bs : Bytes} {start : Nat} (h : start ≤ bs.length) (r : Nat) :
    ∃ result, ∃ stop ≤ bs.length, start ≤ stop ∧ stop ≤ start + 10 ∧
      word bs ⟨start, r⟩ = some (result, ⟨stop, r⟩) ∧
      decode (bs.drop start) = (result.toOption, bs.drop stop) := by
  obtain ⟨stop, hstop, hfrom, hto, hleft, hrun⟩ :=
    reads_wordWithin (r := r) 10 0 start 0 rfl (by decide) h
  refine ⟨_, stop, hstop, hfrom, hto, hrun, ?_⟩
  rw [decode, hleft]
  rcases decodeWithin 10 (bs.drop start) with ⟨_ | high, left⟩
  · rfl
  · have hvalue : (0 : UInt64).toNat + Nat.pow 2 (7 * 0) * high = high := by simp
    simp only [leftOf, hvalue, Option.map_some, Except.toOption]

end Scan

namespace Varint

/-- Bytes start with one number only. -/
theorem Starts.unique {bs front front' : Bytes} {last last' : UInt8} (h : Starts bs front last)
    (h' : Starts bs front' last') : front = front' ∧ last = last' := by
  have hfront : ∀ {front last}, Starts bs front last →
      bs.takeWhile (fun b => decide (128 ≤ b.toNat)) = front := by
    rintro front last ⟨⟨rest, rfl⟩, -, hhigh, hlow⟩
    rw [List.append_assoc, List.takeWhile_append_of_pos (by simpa using hhigh)]
    simp [hlow]
  obtain rfl : front = front' := (hfront h).symm.trans (hfront h')
  have hlen : (front ++ [last]).length = (front ++ [last']).length := by simp
  have hsame := List.prefix_of_prefix_length_le h.isPrefix h'.isPrefix (Nat.le_of_eq hlen)
  exact ⟨rfl, List.singleton_inj.1 (List.append_cancel_left (hsame.eq_of_length hlen))⟩

/-- What comes of reading a number from an offset on, and where the reader stops. -/
structure Outcome (bs : Bytes) (start : Nat) (result : Option UInt64) (stop : Nat) : Prop where
  /-- There is a number if one of the next ten bytes is without its high bit, and the digits up to
  it make a number of 64 bits. -/
  number_iff : (∃ v, result = some v) ↔
    ∃ front last, Starts (bs.drop start) front last ∧ value (front ++ [last]) < UInt64.size
  /-- It is the number of these digits, and the reader stops behind them. -/
  number : ∀ v front last, result = some v → Starts (bs.drop start) front last →
    v.toNat = value (front ++ [last]) ∧ stop = start + (front.length + 1)
  /-- Without a number, some of the next ten bytes were looked at. -/
  failure : result = none → start ≤ stop ∧ stop ≤ start + 10
  inside : stop ≤ bs.length

theorem outcome_of_decode {bs : Bytes} {start stop : Nat} {result : Option UInt64}
    (hstart : start ≤ bs.length) (hstop : stop ≤ bs.length) (hfrom : start ≤ stop)
    (hto : stop ≤ start + 10) (h : decode (bs.drop start) = (result, bs.drop stop)) :
    Outcome bs start result stop := by
  refine ⟨⟨?_, ?_⟩, ?_, fun _ => ⟨hfrom, hto⟩, hstop⟩
  · rintro ⟨v, rfl⟩
    obtain ⟨front, last, hstarts, hvalue, -⟩ := decode_eq_some_iff.1 h
    exact ⟨front, last, hstarts, hvalue ▸ v.toNat_lt⟩
  · rintro ⟨front, last, hstarts, hlt⟩
    have hread := decode_eq_some_iff.2 ⟨front, last, hstarts, UInt64.toNat_ofNat_of_lt' hlt, rfl⟩
    exact ⟨_, (Prod.mk.inj (h.symm.trans hread)).1⟩
  · rintro v front last rfl hstarts
    obtain ⟨front', last', hstarts', hvalue, hleft⟩ := decode_eq_some_iff.1 h
    obtain ⟨rfl, rfl⟩ := hstarts.unique hstarts'
    refine ⟨hvalue, ?_⟩
    have hread := hstarts.isPrefix.length_le
    have hlen := congrArg List.length hleft
    simp only [List.length_drop, List.length_append, List.length_singleton] at hread hlen
    omega

/-- **Numbers are read exactly.**  A number that was written is read back wherever it stands, and
the reader stops behind the one to ten bytes that it takes.  From any bytes and any offset within
them a number is read exactly if there is one, as `Outcome` says.  No read is out of range and no
shift loses a bit, since nothing would come of that. -/
theorem varints_exact :
    (∀ (v : UInt64) (front back : Bytes),
      Scan.word (front ++ (encode v ++ back)) ⟨front.length, 0⟩ =
          some (.ok v, ⟨front.length + (encode v).length, 0⟩) ∧
        1 ≤ (encode v).length ∧ (encode v).length ≤ 10) ∧
    ∀ (bs : Bytes) (start : Nat), start ≤ bs.length →
      ∃ result stop, Scan.word bs ⟨start, 0⟩ = some (result, ⟨stop, 0⟩) ∧
        decode (bs.drop start) = (result.toOption, bs.drop stop) ∧
        Outcome bs start result.toOption stop := by
  constructor
  · intro v front back
    have hpos : 1 ≤ (encode v).length := List.length_pos_iff.2 (spells_digits v.toNat).ne_nil
    refine ⟨?_, hpos, length_encode_le v⟩
    obtain ⟨result, stop, hstop, -, -, hrun, hread⟩ :=
      Scan.reads_word (show front.length ≤ (front ++ (encode v ++ back)).length by simp) 0
    rw [List.drop_left, decode_encode, Prod.mk.injEq] at hread
    have hresult : result = .ok v := by
      cases result with
      | error e => simp [Except.toOption] at hread
      | ok v' => simpa [Except.toOption] using hread.1.symm
    have hlen := congrArg List.length hread.2
    simp only [List.length_drop, List.length_append] at hlen hstop
    have hend : stop = front.length + (encode v).length := by omega
    rw [hrun, hresult, hend]
  · intro bs start hstart
    obtain ⟨result, stop, hstop, hfrom, hto, hrun, hread⟩ := Scan.reads_word hstart 0
    exact ⟨result, stop, hrun, hread, outcome_of_decode hstart hstop hfrom hto hread⟩

/-- Ten bytes hold the greatest number, and a second bit in the tenth is refused. -/
theorem varints_exact_tenth :
    Scan.word ([0] ++ (encode 0xffffffffffffffff ++ [7])) ⟨1, 0⟩
        = some (.ok 0xffffffffffffffff, ⟨11, 0⟩) ∧
      0 ≤ ([255, 255, 255, 255, 255, 255, 255, 255, 255, 2, 7] : Bytes).length ∧
      Outcome [255, 255, 255, 255, 255, 255, 255, 255, 255, 2, 7] 0 none 10 := by
  have hten : (encode 0xffffffffffffffff).length = 10 := by decide +kernel
  obtain ⟨hwritten, -⟩ := varints_exact.1 0xffffffffffffffff [0] [7]
  rw [hten] at hwritten
  obtain ⟨result, stop, -, hread, houtcome⟩ :=
    varints_exact.2 [255, 255, 255, 255, 255, 255, 255, 255, 255, 2, 7] 0 (by decide)
  have hrefused : decode [255, 255, 255, 255, 255, 255, 255, 255, 255, 2, 7] = (none, [7]) := by
    decide
  obtain ⟨hnone, hleft⟩ := Prod.mk.inj (hrefused.symm.trans hread)
  have hlen := congrArg List.length hleft
  have hinside := houtcome.inside
  simp only [List.length_drop, List.length_cons, List.length_nil] at hlen hinside
  rw [← hnone, show stop = 10 by omega] at houtcome
  exact ⟨hwritten, by decide, houtcome⟩

end Varint

end EdgeDeletion
