/-
Reading batches by positions.

The reader of batches goes once round its loop for each operation that a payload claims
to have, and a payload may claim any number of them.  Every operation that is there takes
two bytes at least, so the loop ends with the bytes, whatever the claim is.

* `scan` — the reader of batches by positions;
* `scan_eq` — it gives what the reader of the front gives, without a read out of range;
* `corrupt_append` — a payload that is read is no part of a longer one;
* `batches_exact` — what is written is read back, neither more nor less is.
-/
import EdgeDeletion.Proofs.BatchCodec
import EdgeDeletion.Proofs.Positions

namespace EdgeDeletion.Batch

open Varint (Spelling)

/-! ### The reader by positions -/

section Scan

variable (payload : Bytes)

/-- Reads a byte string behind its length. -/
def scanBytes : Scan BatchError Bytes := do
  let n ← Scan.varint payload .badLength
  let i ← Scan.position
  if UInt64.size ≤ i + n.toNat then Scan.fail .badLength
  else Scan.take payload n.toNat .truncated

/-- Reads an operation. -/
def scanOp : Scan BatchError BatchOp := do
  let tag ← Scan.next payload .truncated
  let key ← scanBytes payload
  if tag = putTag then
    let value ← scanBytes payload
    pure (.put key value)
  else if tag = removeTag then pure (.remove key)
  else Scan.fail .unknownTag

/-- The loop over the operations. -/
def scanOps : (count : Nat) → Scan BatchError (List BatchOp)
  | 0 => pure []
  | n + 1 => do
    Scan.round
    let op ← scanOp payload
    let ops ← scanOps n
    pure (op :: ops)

/-- Reads the version and the number of operations. -/
def scanCount : Scan BatchError UInt64 := do
  let v ← Scan.next payload .empty
  if v ≠ version then Scan.fail .unknownVersion else Scan.varint payload .badCount

/-- Reads a batch. -/
def scan : Scan BatchError (List BatchOp) := do
  let count ← scanCount payload
  let ops ← scanOps payload count.toNat
  let i ← Scan.position
  if i = payload.length then pure ops else Scan.fail .trailingBytes

end Scan

variable {payload : Bytes}

theorem follows_scanBytes :
    Scan.Follows payload (scanBytes payload) (decodeBytes payload.length) := by
  refine .congr (.bind (.varint BatchError.badLength) fun n _ => .bind .position fun i _ =>
    .ite (fun _ => .fail _) fun _ => .take n.toNat BatchError.truncated) fun bs => ?_
  rw [decodeBytes]
  obtain ⟨_ | n, rest⟩ := Varint.decode bs
  · rfl
  · rfl

theorem follows_scanOp : Scan.Follows payload (scanOp payload) (decodeOp payload.length) := by
  refine .congr (.bind (.next BatchError.truncated) fun tag _ => .bind follows_scanBytes
    fun key _ => .ite (fun _ => .bind follows_scanBytes fun value _ =>
      .pure (BatchOp.put key value)) fun _ => .ite (fun _ => .pure (BatchOp.remove key))
        fun _ => .fail _) fun bs => ?_
  cases bs with
  | nil => rfl
  | cons tag bs => rfl

/-- What the reader of the front takes before the operations. -/
def decodeCount : Bytes → Except BatchError (UInt64 × Bytes)
  | [] => .error .empty
  | v :: bs =>
    if v ≠ version then .error .unknownVersion
    else
      match Varint.decode bs with
      | (some n, rest) => .ok (n, rest)
      | (none, _) => .error .badCount

theorem follows_scanCount : Scan.Follows payload (scanCount payload) decodeCount := by
  refine .congr (.bind (.next BatchError.empty) fun v _ => .ite (fun _ => .fail _)
    fun _ => .varint BatchError.badCount) fun bs => ?_
  cases bs with
  | nil => rfl
  | cons v bs => rfl

theorem decode_eq (payload : Bytes) : decode payload =
    match decodeCount payload with
    | .error e => .error e
    | .ok (count, rest) =>
      match decodeOps payload.length count.toNat rest with
      | .error e => .error e
      | .ok (ops, []) => .ok ops
      | .ok (_, _ :: _) => .error .trailingBytes := by
  cases payload with
  | nil => rfl
  | cons v bs =>
    rw [decode, decodeCount]
    split
    · rfl
    · obtain ⟨_ | n, rest⟩ := Varint.decode bs
      · rfl
      · rfl

/-! ### The loop -/

/-- An operation takes a tag and a length at least. -/
theorem two_le_length_of_form {op : BatchOp} {text : Bytes} (h : IsOpForm Spelling op text) :
    2 ≤ text.length := by
  have hbytes : ∀ {bs text}, IsBytesForm Spelling bs text → 1 ≤ text.length := by
    rintro bs text ⟨len, hlen, rfl⟩
    have := List.length_pos_iff.2 hlen.1.ne_nil
    rw [List.length_append]
    omega
  cases h with
  | put hkey hvalue =>
    have := hbytes hkey
    rw [List.length_cons, List.length_append]
    omega
  | remove hkey => exact Nat.succ_le_succ (hbytes hkey)

theorem length_of_decodeOp {total : Nat} {src rest : Bytes} {op : BatchOp}
    (h : decodeOp total src = .ok (op, rest)) : rest.length + 2 ≤ src.length := by
  obtain ⟨⟨text, rfl, hform⟩, -⟩ := form_of_decodeOp h
  have := two_le_length_of_form hform
  rw [List.length_append]
  omega

/-- Every round of a loop that comes to its end takes two bytes. -/
theorem scanOps_ok {count : Nat} {c : Cursor} {ops : List BatchOp} {rest : Bytes}
    (hc : c.position ≤ payload.length)
    (h : decodeOps payload.length count (payload.drop c.position) = .ok (ops, rest)) :
    ∃ i ≤ payload.length, ∃ r, scanOps payload count c = some (.ok ops, ⟨i, r⟩) ∧
      payload.drop i = rest ∧
      2 * r + rest.length ≤ 2 * c.rounds + (payload.drop c.position).length := by
  induction count generalizing c ops with
  | zero =>
    simp only [decodeOps, Except.ok.injEq, Prod.mk.injEq] at h
    obtain ⟨rfl, rfl⟩ := h
    exact ⟨c.position, hc, c.rounds, rfl, rfl, Nat.le_refl _⟩
  | succ count ih =>
    cases hop : decodeOp payload.length (payload.drop c.position) with
    | error e => simp [decodeOps, bind, Except.bind, hop] at h
    | ok p =>
      obtain ⟨op, after⟩ := p
      obtain ⟨i, hi, hrun, rfl⟩ :=
        follows_scanOp.ok (c := ⟨c.position, c.rounds + 1⟩) hc hop
      have hlen := length_of_decodeOp hop
      cases hops : decodeOps payload.length count (payload.drop i) with
      | error e => simp [decodeOps, bind, Except.bind, hop, hops] at h
      | ok p =>
        obtain ⟨ops', rest'⟩ := p
        simp only [decodeOps, bind, Except.bind, hop, hops, pure, Except.pure, Except.ok.injEq,
          Prod.mk.injEq] at h
        obtain ⟨rfl, rfl⟩ := h
        obtain ⟨j, hj, r, hrun', hrest, hrounds⟩ := ih (c := ⟨i, c.rounds + 1⟩) hi hops
        refine ⟨j, hj, r, ?_, hrest, ?_⟩
        · simp only [scanOps, bind, Scan.round, hrun, hrun', pure]
        · simp only at hrounds
          omega

/-- A loop that fails goes round once more than it takes two bytes. -/
theorem scanOps_error {count : Nat} {c : Cursor} {e : BatchError}
    (hc : c.position ≤ payload.length)
    (h : decodeOps payload.length count (payload.drop c.position) = .error e) :
    ∃ i r, scanOps payload count c = some (.error e, ⟨i, r⟩) ∧
      2 * r ≤ 2 * c.rounds + (payload.drop c.position).length + 2 := by
  induction count generalizing c with
  | zero => simp [decodeOps] at h
  | succ count ih =>
    cases hop : decodeOp payload.length (payload.drop c.position) with
    | error e' =>
      simp only [decodeOps, bind, Except.bind, hop, Except.error.injEq] at h
      subst h
      obtain ⟨i, hrun⟩ := follows_scanOp.error (c := ⟨c.position, c.rounds + 1⟩) hc hop
      refine ⟨i, c.rounds + 1, ?_, by omega⟩
      simp only [scanOps, bind, Scan.round, hrun]
    | ok p =>
      obtain ⟨op, after⟩ := p
      obtain ⟨i, hi, hrun, rfl⟩ :=
        follows_scanOp.ok (c := ⟨c.position, c.rounds + 1⟩) hc hop
      have hlen := length_of_decodeOp hop
      cases hops : decodeOps payload.length count (payload.drop i) with
      | ok p => simp [decodeOps, bind, Except.bind, hop, hops, pure, Except.pure] at h
      | error e' =>
        simp only [decodeOps, bind, Except.bind, hop, hops, Except.error.injEq] at h
        subst h
        obtain ⟨j, r, hrun', hrounds⟩ := ih (c := ⟨i, c.rounds + 1⟩) hi hops
        refine ⟨j, r, ?_, ?_⟩
        · simp only [scanOps, bind, Scan.round, hrun, hrun']
        · simp only at hrounds
          omega

/-- The reader by positions gives what the reader of the front gives.  It never reads out of range,
and goes round its loop at most once for every two bytes and once more. -/
theorem scan_eq (payload : Bytes) : ∃ i r,
    scan payload ⟨0, 0⟩ = some (decode payload, ⟨i, r⟩) ∧ r ≤ payload.length / 2 + 1 := by
  rw [decode_eq]
  cases hcount : decodeCount payload with
  | error e =>
    obtain ⟨i, hrun⟩ := follows_scanCount.error (c := ⟨0, 0⟩) (Nat.zero_le _) hcount
    exact ⟨i, 0, by simp [scan, bind, hrun], Nat.zero_le _⟩
  | ok p =>
    obtain ⟨n, after⟩ := p
    obtain ⟨i, hi, hrun, rfl⟩ := follows_scanCount.ok (c := ⟨0, 0⟩) (Nat.zero_le _) hcount
    have hleft : (payload.drop i).length ≤ payload.length := by
      rw [List.length_drop]
      exact Nat.sub_le _ _
    cases hops : decodeOps payload.length n.toNat (payload.drop i) with
    | error e =>
      obtain ⟨j, r, hloop, hrounds⟩ := scanOps_error (c := ⟨i, 0⟩) hi hops
      exact ⟨j, r, by simp [scan, bind, hrun, hloop, hops], by simp only at hrounds; omega⟩
    | ok p =>
      obtain ⟨ops, rest⟩ := p
      obtain ⟨j, hj, r, hloop, hrest, hrounds⟩ := scanOps_ok (c := ⟨i, 0⟩) hi hops
      refine ⟨j, r, ?_, by simp only at hrounds; omega⟩
      -- the loop has left nothing if it stands at the end
      have hend : j = payload.length ↔ rest = [] := by
        rw [← hrest, List.drop_eq_nil_iff]
        omega
      cases rest with
      | nil => simp [scan, bind, hrun, hloop, hops, Scan.position, hend.2 rfl, pure]
      | cons b rest => simp [scan, bind, hrun, hloop, hops, Scan.position, hend, Scan.fail]

/-! ### Payloads and their neighbours -/

/-- A payload that is refused, as callers see it. -/
def Corrupt (payload : Bytes) : Prop :=
  ∃ e what, decode payload = .error e ∧ e.toStorageError = .corruption what

theorem corrupt_of_error {e : BatchError} (h : decode payload = .error e) : Corrupt payload := by
  cases e <;> exact ⟨_, _, h, rfl⟩

/-- A payload that is read is no part of a longer one. -/
theorem corrupt_append {ops : List BatchOp} {rest : Bytes} (h : decode payload = .ok ops)
    (hrest : rest ≠ []) : Corrupt (payload ++ rest) := by
  cases hdecode : decode (payload ++ rest) with
  | error e => exact corrupt_of_error hdecode
  | ok ops' =>
    have hlen := (form_of_decode hdecode).2
    rw [decode_of_form rest (form_of_decode h).1 hlen, if_neg hrest] at hdecode
    simp at hdecode

theorem corrupt_of_prefix {ops : List BatchOp} {p : Bytes} (h : decode payload = .ok ops)
    (hp : p <+: payload) (hne : p ≠ payload) : Corrupt p := by
  obtain ⟨rest, rfl⟩ := hp
  cases hdecode : decode p with
  | error e => exact corrupt_of_error hdecode
  | ok ops' =>
    -- what is read of the shorter payload rules out the longer one
    have hrest : rest ≠ [] := fun hnil => hne (by rw [hnil, List.append_nil])
    obtain ⟨e, what, herror, -⟩ := corrupt_append hdecode hrest
    rw [h] at herror
    simp at herror

/-- **A batch is read back as it was written**, if its payload can be addressed.  Then no payload
that ends sooner is read, and in no case is one that goes on.  Whatever the bytes are, they are not
read out of range, and their length bounds the rounds of the loop. -/
theorem batches_exact (ops : List BatchOp) :
    (decode (encode ops) = .ok ops ↔ (encode ops).length < UInt64.size) ∧
    ((encode ops).length < UInt64.size → ∀ p, p <+: encode ops → p ≠ encode ops → Corrupt p) ∧
    (∀ rest, rest ≠ [] → Corrupt (encode ops ++ rest)) ∧
    ∀ payload, ∃ i r, scan payload ⟨0, 0⟩ = some (decode payload, ⟨i, r⟩) ∧
      r ≤ payload.length / 2 + 1 := by
  refine ⟨⟨fun h => (form_of_decode h).2, decode_encode_of_lt⟩, ?_, ?_, scan_eq⟩
  · intro h p
    exact corrupt_of_prefix (decode_encode_of_lt h)
  · intro rest hrest
    cases hdecode : decode (encode ops ++ rest) with
    | error e => exact corrupt_of_error hdecode
    | ok ops' =>
      have hlen := (form_of_decode hdecode).2
      rw [List.length_append] at hlen
      exact corrupt_append (decode_encode_of_lt (by omega)) hrest

/-- A batch of two operations, and its payload. -/
def pairOfOps : List BatchOp := [.put [0x6b] [], .remove [0x6b]]

theorem encode_pairOfOps : encode pairOfOps = [1, 2, 1, 1, 0x6b, 0, 2, 1, 0x6b] := by
  simp [pairOfOps, encode, encodeOp, encodeBytes, Varint.encode, Varint.digits_of_lt, version,
    putTag, removeTag]

theorem batches_exact_sample :
    ((encode pairOfOps).length < UInt64.size ∧ decode (encode pairOfOps) = .ok pairOfOps) ∧
    (([1, 2, 1, 1, 0x6b, 0] <+: encode pairOfOps ∧ [1, 2, 1, 1, 0x6b, 0] ≠ encode pairOfOps) ∧
      Corrupt [1, 2, 1, 1, 0x6b, 0]) ∧
    ([0] ≠ ([] : Bytes) ∧ Corrupt (encode pairOfOps ++ [0])) := by
  have hlen : (encode pairOfOps).length < UInt64.size := by
    rw [encode_pairOfOps]
    decide
  have hpre : [1, 2, 1, 1, 0x6b, 0] <+: encode pairOfOps := by
    rw [encode_pairOfOps]
    decide
  have hne : [1, 2, 1, 1, 0x6b, 0] ≠ encode pairOfOps := by
    rw [encode_pairOfOps]
    decide
  obtain ⟨hread, hsooner, hlater, -⟩ := batches_exact pairOfOps
  exact ⟨⟨hlen, hread.2 hlen⟩, ⟨⟨hpre, hne⟩, hsooner hlen _ hpre hne⟩,
    by decide, hlater _ (by decide)⟩

end EdgeDeletion.Batch
