/-
Texts that name edges.

An escaped byte string can be read again from its front: no escape is the start of another one.
It is not closed by anything, though, and colons are left as they are, so the identity of an edge
is not read off its text by the colons alone.  The width of the vertices tells where they end.

* `escapedByte_append_inj` — an escape comes off the front of a text in one way only;
* `escaped_append_inj`, `escaped_inj` — so do the escapes of a number of bytes, and whole texts of
  escapes are those of one byte string, of whatever length;
* `closed_inj` — a number comes off the front with the colon behind it;
* `EdgeId.text_inj` — the text of an identity names one edge among those with vertices of a width.
-/
import EdgeDeletion.Delete.Event
import EdgeDeletion.Proofs.KeyLayout
import EdgeDeletion.Proofs.ReadBack

namespace EdgeDeletion

namespace Text

/-! ### Escapes -/

/-- The number of a small hexadecimal digit. -/
def digitOf (c : Char) : Nat := if c.isDigit then c.toNat - 48 else c.toNat - 87

/-- The byte that an escape stands for. -/
def byteOf : List Char → UInt8
  | ['\\', 't'] => 9
  | ['\\', 'r'] => 13
  | ['\\', 'n'] => 10
  | [_, c] => UInt8.ofNat c.toNat
  | [_, _, high, low] => UInt8.ofNat (16 * digitOf high + digitOf low)
  | cs => UInt8.ofNat (cs.headD ' ').toNat

theorem byteOf_escapedByte (b : UInt8) : byteOf (escapedByte b) = b := by
  have hbytes : ∀ n : Fin 256, byteOf (escapedByte (UInt8.ofNat n.val)) = UInt8.ofNat n.val := by
    decide +kernel
  simpa using hbytes ⟨b.toNat, b.toNat_lt⟩

/-- A character that is not a backslash, or a backslash with a character, which is an x if two
digits follow. -/
theorem escapedByte_forms (b : UInt8) :
    (∃ c, c ≠ '\\' ∧ escapedByte b = [c]) ∨ (∃ c, c ≠ 'x' ∧ escapedByte b = ['\\', c]) ∨
      ∃ high low, escapedByte b = ['\\', 'x', high, low] := by
  have hplain : ∀ n : Fin 256, Char.ofNat n.val = '\\' → n.val = 92 := by decide +kernel
  rw [escapedByte]
  -- six bytes have escapes of their own, the backslash is the last of them
  iterate 5
    split
    · exact .inr (.inl ⟨_, by decide, rfl⟩)
  split
  · exact .inr (.inl ⟨_, by decide, rfl⟩)
  · rename_i hback
    split
    · refine .inl ⟨_, fun hc => hback ?_, rfl⟩
      exact UInt8.toNat_inj.1 (hplain ⟨b.toNat, b.toNat_lt⟩ hc)
    · exact .inr (.inr ⟨_, _, rfl⟩)

variable {s t : List Char}

/-- No escape is the start of another one. -/
theorem escapedByte_append_inj {a b : UInt8} (h : escapedByte a ++ s = escapedByte b ++ t) :
    a = b ∧ s = t := by
  have hlen : (escapedByte a).length = (escapedByte b).length := by
    rcases escapedByte_forms a with ⟨c, hc, ha⟩ | ⟨c, hc, ha⟩ | ⟨high, low, ha⟩ <;>
      rcases escapedByte_forms b with ⟨c', hc', hb⟩ | ⟨c', hc', hb⟩ | ⟨high', low', hb⟩ <;>
      grind
  obtain ⟨hcode, hrest⟩ := List.append_inj h hlen
  exact ⟨by rw [← byteOf_escapedByte a, hcode, byteOf_escapedByte], hrest⟩

theorem escapedByte_ne_nil (b : UInt8) : escapedByte b ≠ [] := by
  rcases escapedByte_forms b with ⟨c, -, hb⟩ | ⟨c, -, hb⟩ | ⟨high, low, hb⟩ <;> simp [hb]

theorem toList_escaped (bs : Bytes) : (escaped bs).toList = bs.flatMap escapedByte :=
  String.toList_ofList

/-- The escapes of a number of bytes come off the front of a text in one way only. -/
theorem escaped_append_inj {bs bs' : Bytes} (hlen : bs.length = bs'.length)
    (h : (escaped bs).toList ++ s = (escaped bs').toList ++ t) : bs = bs' ∧ s = t := by
  rw [toList_escaped, toList_escaped] at h
  induction bs generalizing bs' with
  | nil =>
    obtain rfl := List.length_eq_zero_iff.1 hlen.symm
    exact ⟨rfl, h⟩
  | cons b bs ih =>
    obtain ⟨b', bs', rfl⟩ := List.exists_cons_of_length_eq_add_one hlen.symm
    rw [List.flatMap_cons, List.flatMap_cons, List.append_assoc, List.append_assoc] at h
    obtain ⟨rfl, hrest⟩ := escapedByte_append_inj h
    obtain ⟨rfl, hst⟩ := ih (by simpa using hlen) hrest
    exact ⟨rfl, hst⟩

/-- An escaped byte string is that of no other one, of whatever length. -/
theorem escaped_inj {bs bs' : Bytes} (h : escaped bs = escaped bs') : bs = bs' := by
  have hshorter : ∀ {bs bs' : Bytes}, bs.length ≤ bs'.length → escaped bs = escaped bs' →
      bs = bs' := by
    intro bs bs' hle heq
    -- the longer one goes on behind the shorter one, and what goes on has no text
    have hsplit : (escaped bs).toList ++ [] =
        (escaped (bs'.take bs.length)).toList ++ (escaped (bs'.drop bs.length)).toList := by
      rw [List.append_nil, heq, toList_escaped, toList_escaped, toList_escaped,
        ← List.flatMap_append, List.take_append_drop]
    obtain ⟨hfront, hback⟩ := escaped_append_inj (by rw [List.length_take]; omega) hsplit
    have hnil : bs'.drop bs.length = [] := by
      rw [toList_escaped, eq_comm, List.flatMap_eq_nil_iff] at hback
      exact List.eq_nil_iff_forall_not_mem.2 fun b hb => escapedByte_ne_nil b (hback b hb)
    rw [hfront, List.take_of_length_le (List.drop_eq_nil_iff.1 hnil)]
  rcases Nat.le_total bs.length bs'.length with hle | hle
  · exact hshorter hle h
  · exact (hshorter hle h.symm).symm

/-! ### Numbers -/

theorem colon_notMem_natural (n : Nat) : ':' ∉ (toString n).toList := by
  intro hmem
  have hdigits : (toString n).toList = Nat.toDigits 10 n := Nat.toList_repr
  rw [hdigits] at hmem
  exact absurd (Nat.isDigit_of_mem_toDigits (by decide) (by decide) hmem) (by decide)

theorem colon_notMem_integer (i : Int) : ':' ∉ (toString i).toList := by
  cases i with
  | ofNat n => exact colon_notMem_natural n
  | negSucc n =>
    have hminus : (toString (Int.negSucc n)).toList = '-' :: (toString (n + 1)).toList :=
      String.toList_append
    rw [hminus, List.mem_cons, not_or]
    exact ⟨by decide, colon_notMem_natural (n + 1)⟩

/-- A colon closes a text without colons. -/
theorem closed_inj {a b : String} (ha : ':' ∉ a.toList) (hb : ':' ∉ b.toList)
    (h : a.toList ++ ':' :: s = b.toList ++ ':' :: t) : a = b ∧ s = t := by
  have hfront : ∀ {cs s : List Char}, ':' ∉ cs →
      (cs ++ ':' :: s).takeWhile (· != ':') = cs := by
    intro cs s hcs
    have hother : ∀ c ∈ cs, (c != ':') = true := fun c hc =>
      bne_iff_ne.2 fun heq => hcs (heq ▸ hc)
    rw [List.takeWhile_append_of_pos hother]
    simp
  have hab : a.toList = b.toList := by rw [← hfront ha, h, hfront hb]
  rw [hab] at h
  exact ⟨String.toList_inj.1 hab, (List.cons.inj (List.append_cancel_left h)).2⟩

theorem natural_closed_inj {m n : Nat}
    (h : (toString m).toList ++ ':' :: s = (toString n).toList ++ ':' :: t) : m = n ∧ s = t := by
  obtain ⟨hmn, hst⟩ := closed_inj (colon_notMem_natural m) (colon_notMem_natural n) h
  exact ⟨natural_inj hmn, hst⟩

theorem integer_closed_inj {i j : Int}
    (h : (toString i).toList ++ ':' :: s = (toString j).toList ++ ':' :: t) : i = j ∧ s = t := by
  obtain ⟨hij, hst⟩ := closed_inj (colon_notMem_integer i) (colon_notMem_integer j) h
  exact ⟨integer_inj hij, hst⟩

end Text

namespace EdgeId

theorem toList_text (i : EdgeId) : i.text.toList =
    (toString i.place.space.toNat).toList ++ ':' :: ((toString i.place.part.toNat).toList ++
      ':' :: ((Text.escaped i.edge.src).toList ++ ':' :: ((toString i.edge.type.toInt).toList ++
        ':' :: ((toString i.edge.rank.toInt).toList ++
          ':' :: ((Text.escaped i.edge.dst).toList ++ []))))) := by
  rw [text, String.toList_intercalate]
  simp [List.intercalate]

/-- The text of an identity names no other one whose vertices have the same width. -/
theorem text_inj {vidLen : Nat} {i j : EdgeId} (hi : i.edge.hasWidth vidLen = true)
    (hj : j.edge.hasWidth vidLen = true) (h : i.text = j.text) : i = j := by
  obtain ⟨hsrc, hdst⟩ := Edge.hasWidth_iff.1 hi
  obtain ⟨hsrc', hdst'⟩ := Edge.hasWidth_iff.1 hj
  -- the parts are taken off the front, the vertices by their width and the numbers by their colons
  have h := congrArg String.toList h
  rw [toList_text, toList_text] at h
  obtain ⟨hspace, h⟩ := Text.natural_closed_inj h
  obtain ⟨hpart, h⟩ := Text.natural_closed_inj h
  obtain ⟨hsrc, h⟩ := Text.escaped_append_inj (hsrc.trans hsrc'.symm) h
  obtain ⟨htype, h⟩ := Text.integer_closed_inj (List.cons.inj h).2
  obtain ⟨hrank, h⟩ := Text.integer_closed_inj h
  obtain ⟨hdst, -⟩ := Text.escaped_append_inj (hdst.trans hdst'.symm) h
  obtain ⟨⟨space, part⟩, ⟨src, type, rank, dst⟩⟩ := i
  obtain ⟨⟨space', part'⟩, ⟨src', type', rank', dst'⟩⟩ := j
  rw [EdgeId.mk.injEq, Place.mk.injEq, Edge.mk.injEq]
  exact ⟨⟨UInt32.toNat_inj.1 hspace, UInt32.toNat_inj.1 hpart⟩, hsrc, Int32.toInt_inj.1 htype,
    Int64.toInt_inj.1 hrank, hdst⟩

end EdgeId

end EdgeDeletion
