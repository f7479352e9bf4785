/-
The payloads of batches.

A payload of a batch is the version, the number of its operations, and the operations
one after the other, each byte string behind its length.  The reader takes a payload if
it has this form and its positions are 64-bit numbers (`decode_eq_ok_iff`).  It does not
ask how the numbers are spelled, while the writer spells them without needless digits.

* `IsForm` — the form of a payload, for any manner of spelling numbers;
* `decode_encode_eq` — a batch is read back exactly if its payload can be addressed;
* `payloads_by_spelling` — a batch has one payload for each way to spell its numbers, and
  the one that is written is the shortest of them.
-/
import EdgeDeletion.Batch
import EdgeDeletion.Proofs.VarintForms

namespace EdgeDeletion.Batch

open Varint (Spelling ShortSpelling)

/-! ### The form of a payload -/

section Form

variable (spells : Nat → Bytes → Prop)

/-- A byte string behind a spelling of its length. -/
def IsBytesForm (bs text : Bytes) : Prop := ∃ len, spells bs.length len ∧ text = len ++ bs

/-- The bytes of an operation. -/
inductive IsOpForm : BatchOp → Bytes → Prop
  | put {key value keyText valueText : Bytes} (hkey : IsBytesForm spells key keyText)
    (hvalue : IsBytesForm spells value valueText) :
    IsOpForm (.put key value) (putTag :: (keyText ++ valueText))
  | remove {key keyText : Bytes} (hkey : IsBytesForm spells key keyText) :
    IsOpForm (.remove key) (removeTag :: keyText)

/-- The bytes of operations, one after the other. -/
inductive IsOpsForm : List BatchOp → Bytes → Prop
  | nil : IsOpsForm [] []
  | cons {op : BatchOp} {ops : List BatchOp} {text rest : Bytes} (hop : IsOpForm spells op text)
    (hops : IsOpsForm ops rest) : IsOpsForm (op :: ops) (text ++ rest)

/-- A payload of a batch. -/
def IsForm (ops : List BatchOp) (payload : Bytes) : Prop :=
  ∃ count text, spells ops.length count ∧ IsOpsForm spells ops text ∧
    payload = version :: (count ++ text)

end Form

/-! ### Reading a form -/

theorem decodeBytes_of_form {total : Nat} {bs text : Bytes} (rest : Bytes)
    (h : IsBytesForm Spelling bs text) (hlen : (text ++ rest).length ≤ total)
    (htotal : total < UInt64.size) : decodeBytes total (text ++ rest) = .ok (bs, rest) := by
  obtain ⟨len, hspelling, rfl⟩ := h
  simp only [List.length_append] at hlen
  rw [decodeBytes, List.append_assoc, Varint.decode_of_spelling hspelling]
  simp only [hspelling.toNat_ofNat]
  rw [if_neg (by rw [List.length_append]; omega), Bytes.take?_append rfl]

theorem decodeOp_of_form {total : Nat} {op : BatchOp} {text : Bytes} (rest : Bytes)
    (h : IsOpForm Spelling op text) (hlen : (text ++ rest).length ≤ total)
    (htotal : total < UInt64.size) : decodeOp total (text ++ rest) = .ok (op, rest) := by
  cases h with
  | @put key value keyText valueText hkey hvalue =>
    simp only [List.cons_append, List.append_assoc, List.length_cons] at hlen
    have hkey := decodeBytes_of_form (valueText ++ rest) hkey (by omega) htotal
    have hvalue := decodeBytes_of_form rest hvalue
      (by rw [List.length_append] at hlen; omega) htotal
    rw [List.cons_append, List.append_assoc, decodeOp, hkey]
    simp only [bind, Except.bind, if_true, hvalue]
    rfl
  | remove hkey =>
    rw [List.cons_append, List.length_cons] at hlen
    have hkey := decodeBytes_of_form rest hkey (by omega) htotal
    have htag : ¬removeTag = putTag := by decide
    rw [List.cons_append, decodeOp, hkey]
    simp only [bind, Except.bind, htag, if_false, if_true]
    rfl

theorem decodeOps_of_form {total : Nat} {ops : List BatchOp} {text : Bytes} (rest : Bytes)
    (h : IsOpsForm Spelling ops text) (hlen : (text ++ rest).length ≤ total)
    (htotal : total < UInt64.size) :
    decodeOps total ops.length (text ++ rest) = .ok (ops, rest) := by
  induction h with
  | nil => rfl
  | @cons op ops text after hop hops ih =>
    rw [List.append_assoc] at hlen ⊢
    have hafter : (after ++ rest).length ≤ total := by
      rw [List.length_append] at hlen
      omega
    rw [List.length_cons, decodeOps, decodeOp_of_form _ hop hlen htotal]
    simp only [bind, Except.bind, ih hafter]
    rfl

/-- A payload is read where nothing follows it. -/
theorem decode_of_form {ops : List BatchOp} {payload : Bytes} (rest : Bytes)
    (h : IsForm Spelling ops payload) (hlen : (payload ++ rest).length < UInt64.size) :
    decode (payload ++ rest) = if rest = [] then .ok ops else .error .trailingBytes := by
  obtain ⟨count, text, hspelling, hops, rfl⟩ := h
  rw [List.cons_append, List.append_assoc, List.length_cons] at hlen
  have hafter : (text ++ rest).length ≤ (count ++ (text ++ rest)).length + 1 := by
    have hsum : (count ++ (text ++ rest)).length = count.length + (text ++ rest).length :=
      List.length_append
    omega
  have hops := decodeOps_of_form rest hops hafter hlen
  rw [List.cons_append, List.append_assoc, decode, if_neg (by simp),
    Varint.decode_of_spelling hspelling]
  simp only [hspelling.toNat_ofNat, hops]
  cases rest <;> simp

/-! ### What is read has the form -/

/-- A byte string is read from one of its forms.  It ends at a position below 2^64. -/
theorem form_of_decodeBytes {total : Nat} {src bs rest : Bytes}
    (h : decodeBytes total src = .ok (bs, rest)) :
    (∃ text, src = text ++ rest ∧ IsBytesForm Spelling bs text) ∧
      total < UInt64.size + rest.length := by
  rw [decodeBytes] at h
  rcases hv : Varint.decode src with ⟨_ | n, after⟩
  · simp [hv] at h
  · obtain ⟨len, rfl, hspelling⟩ := Varint.spelling_of_decode hv
    simp only [hv, Bytes.take?] at h
    split at h
    · simp at h
    · rename_i hpos
      split at h
      · rename_i q hq
        split at hq
        · rename_i hle
          simp only [Option.some.injEq] at hq
          simp only [← hq, Except.ok.injEq, Prod.mk.injEq] at h
          obtain ⟨rfl, rfl⟩ := h
          have hn : (after.take n.toNat).length = n.toNat := by
            rw [List.length_take]
            omega
          refine ⟨⟨len ++ after.take n.toNat, ?_, len, hn.symm ▸ hspelling, rfl⟩, ?_⟩
          · rw [List.append_assoc, List.take_append_drop]
          · rw [List.length_drop]
            omega
        · simp at hq
      · simp at h

theorem form_of_decodeOp {total : Nat} {src rest : Bytes} {op : BatchOp}
    (h : decodeOp total src = .ok (op, rest)) :
    (∃ text, src = text ++ rest ∧ IsOpForm Spelling op text) ∧
      total < UInt64.size + rest.length := by
  cases src with
  | nil => simp [decodeOp] at h
  | cons tag src =>
    simp only [decodeOp, bind, Except.bind] at h
    split at h
    · simp at h
    · rename_i q hkey
      obtain ⟨⟨keyText, rfl, hkeyForm⟩, hlt⟩ := form_of_decodeBytes hkey
      split at h
      · rename_i htag
        split at h
        · simp at h
        · rename_i r hvalue
          obtain ⟨⟨valueText, hsrc, hvalueForm⟩, hlt⟩ := form_of_decodeBytes hvalue
          simp only [pure, Except.pure, Except.ok.injEq, Prod.mk.injEq] at h
          obtain ⟨rfl, rfl⟩ := h
          refine ⟨⟨_, ?_, .put hkeyForm hvalueForm⟩, hlt⟩
          rw [htag, hsrc, List.cons_append, List.append_assoc]
      · split at h
        · rename_i htag
          simp only [pure, Except.pure, Except.ok.injEq, Prod.mk.injEq] at h
          obtain ⟨rfl, rfl⟩ := h
          exact ⟨⟨_, by rw [htag, List.cons_append], .remove hkeyForm⟩, hlt⟩
        · simp at h

/-- Operations are read from their forms.  Unless there are none, the last one ends at a position
below 2^64. -/
theorem form_of_decodeOps {total count : Nat} {src rest : Bytes} {ops : List BatchOp}
    (h : decodeOps total count src = .ok (ops, rest)) :
    ∃ text, src = text ++ rest ∧ IsOpsForm Spelling ops text ∧ ops.length = count ∧
      (text = [] ∨ total < UInt64.size + rest.length) := by
  induction count generalizing src ops with
  | zero =>
    simp only [decodeOps, Except.ok.injEq, Prod.mk.injEq] at h
    obtain ⟨rfl, rfl⟩ := h
    exact ⟨[], rfl, .nil, rfl, .inl rfl⟩
  | succ count ih =>
    simp only [decodeOps, bind, Except.bind] at h
    split at h
    · simp at h
    · rename_i q hop
      obtain ⟨⟨text, rfl, hform⟩, hlt⟩ := form_of_decodeOp hop
      split at h
      · simp at h
      · rename_i r hops
        simp only [pure, Except.pure, Except.ok.injEq, Prod.mk.injEq] at h
        obtain ⟨rfl, rfl⟩ := h
        obtain ⟨texts, hsrc, hforms, hcount, hend⟩ := ih hops
        refine ⟨text ++ texts, by rw [hsrc, List.append_assoc], .cons hform hforms,
          by rw [List.length_cons, hcount], .inr ?_⟩
        -- the last operation ends further on than this one, unless this one is the last
        rcases hend with rfl | hlt'
        · simpa [hsrc] using hlt
        · exact hlt'

/-- A payload that is read has the form and is shorter than 2^64 bytes. -/
theorem form_of_decode {payload : Bytes} {ops : List BatchOp} (h : decode payload = .ok ops) :
    IsForm Spelling ops payload ∧ payload.length < UInt64.size := by
  cases payload with
  | nil => simp [decode] at h
  | cons v src =>
    rw [decode] at h
    split at h
    · simp at h
    · rename_i hversion
      rcases hv : Varint.decode src with ⟨_ | n, after⟩
      · simp [hv] at h
      · obtain ⟨count, rfl, hspelling⟩ := Varint.spelling_of_decode hv
        simp only [hv] at h
        split at h
        · simp at h
        · rename_i ops' hops
          simp only [Except.ok.injEq] at h
          subst h
          obtain ⟨text, rfl, hforms, hcount, hend⟩ := form_of_decodeOps hops
          rw [List.append_nil] at hend ⊢
          refine ⟨⟨count, text, hcount ▸ hspelling, hforms, ?_⟩, ?_⟩
          · rw [Decidable.not_not.1 hversion]
          · rcases hend with rfl | hlt
            · -- no operation: the payload is a version and at most ten digits
              have hdigits := hspelling.2.1
              have hsize : UInt64.size = 18446744073709551616 := rfl
              rw [List.append_nil, List.length_cons]
              omega
            · simpa using hlt
        · simp at h

/-- **The reader takes exactly the payloads of the form** that can be addressed. -/
theorem decode_eq_ok_iff {payload : Bytes} {ops : List BatchOp} :
    decode payload = .ok ops ↔ IsForm Spelling ops payload ∧ payload.length < UInt64.size := by
  refine ⟨form_of_decode, ?_⟩
  rintro ⟨hform, hlen⟩
  have h := decode_of_form [] hform (by rwa [List.append_nil])
  rwa [List.append_nil, if_pos rfl] at h

/-! ### Writing a form -/

/-- Spellings may be exchanged for others of a more general kind. -/
theorem IsForm.mono {p q : Nat → Bytes → Prop} (hpq : ∀ n s, p n s → q n s)
    {ops : List BatchOp} {payload : Bytes} (h : IsForm p ops payload) : IsForm q ops payload := by
  have hbytes : ∀ {bs text}, IsBytesForm p bs text → IsBytesForm q bs text := by
    rintro bs text ⟨len, hlen, rfl⟩
    exact ⟨len, hpq _ _ hlen, rfl⟩
  have hop : ∀ {op text}, IsOpForm p op text → IsOpForm q op text := by
    intro op text h
    cases h with
    | put hkey hvalue => exact .put (hbytes hkey) (hbytes hvalue)
    | remove hkey => exact .remove (hbytes hkey)
  obtain ⟨count, text, hcount, hops, rfl⟩ := h
  refine ⟨count, text, hpq _ _ hcount, ?_, rfl⟩
  clear hcount
  induction hops with
  | nil => exact .nil
  | cons h _ ih => exact .cons (hop h) ih

theorem isBytesForm_encodeBytes {bs : Bytes} (h : bs.length < UInt64.size) :
    IsBytesForm ShortSpelling bs (encodeBytes bs) :=
  ⟨_, Varint.shortSpelling_iff.2 ⟨h, rfl⟩, rfl⟩

theorem isOpForm_encodeOp {op : BatchOp} (h : (encodeOp op).length < UInt64.size) :
    IsOpForm ShortSpelling op (encodeOp op) := by
  cases op with
  | put key value =>
    simp only [encodeOp, encodeBytes, List.length_cons, List.length_append] at h
    exact .put (isBytesForm_encodeBytes (by omega)) (isBytesForm_encodeBytes (by omega))
  | remove key =>
    simp only [encodeOp, encodeBytes, List.length_cons, List.length_append] at h
    exact .remove (isBytesForm_encodeBytes (by omega))

theorem isOpsForm_encode {ops : List BatchOp}
    (h : (ops.flatMap encodeOp).length < UInt64.size) :
    IsOpsForm ShortSpelling ops (ops.flatMap encodeOp) := by
  induction ops with
  | nil => exact .nil
  | cons op ops ih =>
    rw [List.flatMap_cons, List.length_append] at h
    exact .cons (isOpForm_encodeOp (by omega)) (ih (by omega))

theorem length_le_flatMap_encodeOp (ops : List BatchOp) :
    ops.length ≤ (ops.flatMap encodeOp).length := by
  induction ops with
  | nil => exact Nat.le_refl _
  | cons op ops ih =>
    have hop : 1 ≤ (encodeOp op).length := by cases op <;> simp [encodeOp]
    rw [List.flatMap_cons, List.length_append, List.length_cons]
    omega

/-- What is written has the form, with its numbers spelled without needless digits. -/
theorem isForm_encode {ops : List BatchOp} (h : (encode ops).length < UInt64.size) :
    IsForm ShortSpelling ops (encode ops) := by
  simp only [encode, List.length_cons, List.length_append] at h
  -- the count of operations is written as it is, since every operation takes a byte
  have hcount := length_le_flatMap_encodeOp ops
  exact ⟨_, _, Varint.shortSpelling_iff.2 ⟨by omega, rfl⟩, isOpsForm_encode (by omega), rfl⟩

/-! ### Reading back what was written -/

/-- A batch whose payload can be addressed is read back. -/
theorem decode_encode_of_lt {ops : List BatchOp} (h : (encode ops).length < UInt64.size) :
    decode (encode ops) = .ok ops :=
  decode_eq_ok_iff.2 ⟨(isForm_encode h).mono fun _ _ hs => hs.1, h⟩

/-- A batch is read back exactly if its payload can be addressed. -/
theorem decode_encode_eq (ops : List BatchOp) :
    (∃ ops', decode (encode ops) = .ok ops') ↔ (encode ops).length < UInt64.size :=
  ⟨fun ⟨_, h⟩ => (form_of_decode h).2, fun h => ⟨ops, decode_encode_of_lt h⟩⟩

/-- What is read from a written batch is what was written. -/
theorem eq_of_decode_encode {ops ops' : List BatchOp} (h : decode (encode ops) = .ok ops') :
    ops' = ops := by
  have hlt := (form_of_decode h).2
  rw [decode_encode_of_lt hlt] at h
  exact (Except.ok.inj h).symm

/-! ### Payloads of one batch -/

/-- A form without needless digits is the one that is written. -/
theorem eq_encode_of_form {ops : List BatchOp} {payload : Bytes}
    (h : IsForm ShortSpelling ops payload) : payload = encode ops := by
  have hbytes : ∀ {bs text}, IsBytesForm ShortSpelling bs text → text = encodeBytes bs := by
    rintro bs text ⟨len, hlen, rfl⟩
    rw [(Varint.shortSpelling_iff.1 hlen).2]
    rfl
  have hop : ∀ {op text}, IsOpForm ShortSpelling op text → text = encodeOp op := by
    intro op text h
    cases h with
    | put hkey hvalue => rw [hbytes hkey, hbytes hvalue]; rfl
    | remove hkey => rw [hbytes hkey]; rfl
  obtain ⟨count, text, hcount, hops, rfl⟩ := h
  have htext : text = ops.flatMap encodeOp := by
    clear hcount
    induction hops with
    | nil => rfl
    | cons h _ ih => rw [hop h, ih, List.flatMap_cons]
  rw [htext, (Varint.shortSpelling_iff.1 hcount).2]
  rfl

/-- No form is shorter than the one that is written. -/
theorem length_encode_le_of_form {ops : List BatchOp} {payload : Bytes}
    (h : IsForm Spelling ops payload) : (encode ops).length ≤ payload.length := by
  have hnumber : ∀ {n s}, Spelling n s → (Varint.encode (UInt64.ofNat n)).length ≤ s.length := by
    intro n s hs
    rw [Varint.encode, hs.toNat_ofNat]
    exact Varint.length_digits_le hs.1
  have hbytes : ∀ {bs text}, IsBytesForm Spelling bs text →
      (encodeBytes bs).length ≤ text.length := by
    rintro bs text ⟨len, hlen, rfl⟩
    have := hnumber hlen
    simp only [encodeBytes, List.length_append]
    omega
  have hop : ∀ {op text}, IsOpForm Spelling op text → (encodeOp op).length ≤ text.length := by
    intro op text h
    cases h with
    | put hkey hvalue =>
      have hkey := hbytes hkey
      have hvalue := hbytes hvalue
      simp only [encodeOp, List.length_cons, List.length_append]
      omega
    | remove hkey => exact Nat.succ_le_succ (hbytes hkey)
  obtain ⟨count, text, hspelling, hops, rfl⟩ := h
  have hcount := hnumber hspelling
  have htext : (ops.flatMap encodeOp).length ≤ text.length := by
    clear hspelling hcount
    induction hops with
    | nil => exact Nat.le_refl _
    | cons h _ ih =>
      rw [List.flatMap_cons, List.length_append, List.length_append]
      exact Nat.add_le_add (hop h) ih
  simp only [encode, List.length_cons, List.length_append]
  omega

/-- **A batch has one payload for each way to spell its numbers.**  The reader takes all of them.
None is shorter than the one that is written, and this is the only one without needless digits. -/
theorem payloads_by_spelling (payload : Bytes) (ops : List BatchOp) :
    (decode payload = .ok ops ↔ IsForm Spelling ops payload ∧ payload.length < UInt64.size) ∧
    (decode payload = .ok ops → (encode ops).length ≤ payload.length ∧
      (payload = encode ops ↔ IsForm ShortSpelling ops payload)) := by
  refine ⟨decode_eq_ok_iff, fun h => ?_⟩
  obtain ⟨hform, hlen⟩ := form_of_decode h
  refine ⟨length_encode_le_of_form hform, fun heq => ?_, eq_encode_of_form⟩
  rw [heq] at hlen ⊢
  exact isForm_encode hlen

/-- A payload of one removal that spells the number of operations with a needless digit. -/
def paddedPayload : Bytes := [version, 0x81, 0x00, removeTag, 1, 0x6b]

theorem payloads_by_spelling_padded :
    decode paddedPayload = .ok [.remove [0x6b]] ∧
      (encode [.remove [0x6b]]).length ≤ paddedPayload.length ∧
      (paddedPayload = encode [.remove [0x6b]] ↔
        IsForm ShortSpelling [.remove [0x6b]] paddedPayload) := by
  have h : decode paddedPayload = .ok [.remove [0x6b]] := rfl
  exact ⟨h, (payloads_by_spelling _ _).2 h⟩

/-- The payload with the needless digit and the one that is written say the same. -/
theorem padded_payload_accepted :
    decode paddedPayload = .ok [.remove [0x6b]] ∧
      decode (encode [.remove [0x6b]]) = .ok [.remove [0x6b]] ∧
      encode [.remove [0x6b]] ≠ paddedPayload := by
  have hencode : encode [.remove [0x6b]] = [version, 0x01, removeTag, 1, 0x6b] := by
    simp [encode, encodeOp, encodeBytes, Varint.encode, Varint.digits_of_lt]
  rw [hencode]
  exact ⟨rfl, rfl, by decide⟩

end EdgeDeletion.Batch
