/-
Numbers and byte strings are read back from their texts.

* `Text.natural?_toString`, `Text.integer?_toString` — numbers in base ten;
* `Hex.decode_encode` — byte strings in hexadecimal;
* `Text.trim_append` — a text without blanks, from before the blanks that follow it.
-/
import EdgeDeletion.Text.Hex
import EdgeDeletion.Text.Integer
import Mathlib.Data.List.TakeWhile

namespace EdgeDeletion

namespace Text

/-! ### Numbers -/

theorem digits?_toDigits (n : Nat) : digits? (Nat.toDigits 10 n) = some n := by
  have hall : (Nat.toDigits 10 n).all Char.isDigit = true :=
    List.all_eq_true.2 fun c hc => Nat.isDigit_of_mem_toDigits (by decide) (by decide) hc
  rw [digits?, if_pos ⟨Nat.toDigits_ne_nil, hall⟩, ← Nat.ofDigitChars_eq_foldl,
    Nat.ofDigitChars_toDigits (by decide) (by decide)]

/-- A number starts with a digit. -/
theorem exists_digit_cons (n : Nat) :
    ∃ c cs, (toString n).toList = c :: cs ∧ c.isDigit = true := by
  have hdigits : (toString n).toList = Nat.toDigits 10 n := Nat.toList_repr
  obtain ⟨c, cs, hcons⟩ := List.exists_cons_of_ne_nil (Nat.toDigits_ne_nil (b := 10) (n := n))
  refine ⟨c, cs, hdigits.trans hcons, ?_⟩
  exact Nat.isDigit_of_mem_toDigits (by decide) (by decide) (hcons ▸ List.mem_cons_self)

theorem natural?_toString (n : Nat) : natural? (toString n) = some n := by
  have hdigits : (toString n).toList = Nat.toDigits 10 n := Nat.toList_repr
  obtain ⟨c, cs, hcons, hdigit⟩ := exists_digit_cons n
  rw [natural?]
  split
  · rename_i hplus
    rw [hcons, List.cons.injEq] at hplus
    rw [hplus.1] at hdigit
    exact absurd hdigit (by decide)
  · rw [hdigits]
    exact digits?_toDigits n

theorem integer?_toString (i : Int) : integer? (toString i) = some i := by
  cases i with
  | ofNat n =>
    obtain ⟨c, cs, hcons, hdigit⟩ := exists_digit_cons n
    have htext : toString (Int.ofNat n) = toString n := rfl
    rw [integer?, htext]
    split
    · rename_i hminus
      rw [hcons, List.cons.injEq] at hminus
      rw [hminus.1] at hdigit
      exact absurd hdigit (by decide)
    · rw [natural?_toString]
      rfl
  | negSucc n =>
    have hminus : (toString (Int.negSucc n)).toList = '-' :: (toString (n + 1)).toList :=
      String.toList_append
    have hdigits : (toString (n + 1)).toList = Nat.toDigits 10 (n + 1) := Nat.toList_repr
    rw [integer?, hminus, hdigits]
    simp only [digits?_toDigits]
    rfl

theorem natural_inj {m n : Nat} (h : toString m = toString n) : m = n := by
  have hread := congrArg natural? h
  rw [natural?_toString, natural?_toString] at hread
  exact Option.some.inj hread

theorem integer_inj {i j : Int} (h : toString i = toString j) : i = j := by
  have hread := congrArg integer? h
  rw [integer?_toString, integer?_toString] at hread
  exact Option.some.inj hread

/-! ### Blanks -/

theorem trim_append {cs back : List Char} (hcs : ∀ c ∈ cs, isBlank c = false)
    (hback : ∀ c ∈ back, isBlank c = true) :
    trim (String.ofList (cs ++ back)) = String.ofList cs := by
  have hkeep : ∀ ds : List Char, (∀ c ∈ ds, c ∈ cs) → ds.dropWhile isBlank = ds := by
    intro ds hds
    cases ds with
    | nil => rfl
    | cons c ds => simp [hcs c (hds c (List.mem_cons_self ..))]
  have hfront : (cs ++ back).dropWhile isBlank = [] ∧ cs = [] ∨
      (cs ++ back).dropWhile isBlank = cs ++ back := by
    cases cs with
    | nil => exact .inl ⟨List.dropWhile_eq_nil_iff.2 hback, rfl⟩
    | cons c cs => exact .inr (by simp [hcs c (List.mem_cons_self ..)])
  rw [trim, String.toList_ofList]
  rcases hfront with ⟨hnone, rfl⟩ | hall
  · rw [hnone]
    rfl
  · rw [hall, List.reverse_append,
      List.dropWhile_append_of_pos fun c hc => hback c (List.mem_reverse.1 hc),
      hkeep _ fun c => List.mem_reverse.1, List.reverse_reverse]

end Text

namespace Hex

/-- The bytes of the two digits of a byte. -/
def pairBytes (b : UInt8) : Bytes := (Text.hexPair b).flatMap String.utf8EncodeChar

theorem ofText_encode (bs : Bytes) : Bytes.ofText (encode bs) = bs.flatMap pairBytes := by
  rw [Bytes.ofText, String.toUTF8_eq_toByteArray, encode, String.toByteArray_ofList, encodeChars,
    List.utf8Encode, List.flatMap_assoc, List.data_toByteArray]
  rfl

/-- A digit is written as one byte, which is read as the digit. -/
theorem digit?_hexDigit : ∀ n : Fin 16,
    (String.utf8EncodeChar (Text.hexDigit n.val)).map digit? = [some n.val] := by
  decide +kernel

theorem pairBytes_eq (b : UInt8) : ∃ high low, pairBytes b = [high, low] ∧
    digit? high = some (b.toNat / 16) ∧ digit? low = some (b.toNat % 16) := by
  have hhigh : b.toNat / 16 < 16 := by
    have hlt := b.toNat_lt
    omega
  have hlow : b.toNat % 16 < 16 := Nat.mod_lt _ (by decide)
  obtain ⟨high, henc, hread⟩ := List.map_eq_singleton_iff.1 (digit?_hexDigit ⟨_, hhigh⟩)
  obtain ⟨low, henc', hread'⟩ := List.map_eq_singleton_iff.1 (digit?_hexDigit ⟨_, hlow⟩)
  refine ⟨high, low, ?_, hread, hread'⟩
  show String.utf8EncodeChar _ ++ (String.utf8EncodeChar _ ++ []) = _
  rw [henc, henc']
  rfl

theorem decodePairs_encode (position : Nat) (bs : Bytes) :
    decodePairs position (bs.flatMap pairBytes) = .ok bs := by
  induction bs generalizing position with
  | nil => rfl
  | cons b bs ih =>
    obtain ⟨high, low, hpair, hhigh, hlow⟩ := pairBytes_eq b
    have hbyte : UInt8.ofNat (16 * (b.toNat / 16) + b.toNat % 16) = b := by
      rw [Nat.div_add_mod]
      exact UInt8.ofNat_toNat
    rw [List.flatMap_cons, hpair, List.cons_append, List.cons_append, List.nil_append, decodePairs,
      hhigh, hlow]
    simp only [ih, hbyte]
    rfl

theorem length_pairs (bs : Bytes) : (bs.flatMap pairBytes).length = 2 * bs.length := by
  induction bs with
  | nil => rfl
  | cons b bs ih =>
    obtain ⟨high, low, hpair, -⟩ := pairBytes_eq b
    rw [List.flatMap_cons, List.length_append, hpair, ih, List.length_cons]
    simp only [List.length_cons, List.length_nil]
    omega

theorem decode_encode (bs : Bytes) : decode (Bytes.ofText (encode bs)) = .ok bs := by
  rw [ofText_encode, decode, length_pairs, if_neg (by omega), decodePairs_encode]

/-- The text has digits only. -/
theorem mem_encode {bs : Bytes} {c : Char} (h : c ∈ (encode bs).toList) :
    ∃ n : Fin 16, c = Text.hexDigit n.val := by
  rw [encode, String.toList_ofList, encodeChars] at h
  obtain ⟨b, -, hc⟩ := List.mem_flatMap.1 h
  have hlt := b.toNat_lt
  rcases List.mem_cons.1 hc with rfl | hc
  · exact ⟨⟨b.toNat / 16, by omega⟩, rfl⟩
  · exact ⟨⟨b.toNat % 16, by omega⟩, List.mem_singleton.1 hc⟩

theorem isBlank_hexDigit : ∀ n : Fin 16, Text.isBlank (Text.hexDigit n.val) = false := by
  decide +kernel

/-- Blanks behind the text, such as the end of its line, do not count. -/
theorem trim_encode (bs : Bytes) (back : List Char) (hback : ∀ c ∈ back, Text.isBlank c = true) :
    Text.trim (encode bs ++ String.ofList back) = encode bs := by
  have hdigits : ∀ c ∈ (encode bs).toList, Text.isBlank c = false := by
    intro c hc
    obtain ⟨n, rfl⟩ := mem_encode hc
    exact isBlank_hexDigit n
  have hsplit : encode bs ++ String.ofList back = String.ofList ((encode bs).toList ++ back) :=
    String.toList_inj.1 (by simp)
  rw [hsplit, Text.trim_append hdigits hback, String.ofList_toList]

end Hex

end EdgeDeletion
