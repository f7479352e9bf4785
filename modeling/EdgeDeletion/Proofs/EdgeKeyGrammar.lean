/-
The grammar of the keys of edges.

A key of an edge is the prefix of the edge, with both vertices at the width of the space, and
at least one byte behind it.  The prefix has a fixed length, and every string of a number's
width is the image of a number, so length and tag decide whether a byte string is such a key.
The split is unique, and the role is read off what stands behind the prefix.

* `exists_splits` — a string of sufficient length with the tag splits;
* `parse?_of_splits` — parsing finds the split;
* `gives_kind`, `gives_parse` — read by positions, each with offsets of its own, a key gives
  the same and is never read out of range;
* `edge_keys_parsed` — all of it for every byte string.
-/
import EdgeDeletion.Proofs.KeyLayout
import EdgeDeletion.Proofs.Positions

namespace EdgeDeletion

/-- A byte string can be cut at any place. -/
theorem Bytes.exists_append_of_le (n : Nat) (bs : Bytes) (h : n ≤ bs.length) :
    ∃ front back, bs = front ++ back ∧ front.length = n :=
  ⟨bs.take n, bs.drop n, (List.take_append_drop n bs).symm, by rw [List.length_take]; omega⟩

namespace Key

/-! ### Splits -/

/-- A key is the prefix of an edge, its vertices at full width, with something behind it. -/
structure Splits (vidLen : Nat) (key : Bytes) (part : PartId) (e : Edge) (rest : Bytes) :
    Prop where
  src : e.src.length = vidLen
  dst : e.dst.length = vidLen
  key : key = edgePrefix vidLen part e ++ rest
  more : rest ≠ []

/-- The role that belongs to what stands behind the prefix. -/
structure StandsFor (rest : Bytes) (k : Kind) : Prop where
  lock : k = .lock ↔ [0x00] <+: rest
  record : k = .record ↔ rest = [0x01]
  other : k = .other ↔ ¬[0x00] <+: rest ∧ rest ≠ [0x01]

variable {vidLen : Nat} {key rest rest' : Bytes} {part part' : PartId} {e e' : Edge}

theorem standsFor_kindOfRest (rest : Bytes) : StandsFor rest (kindOfRest rest) := by
  match rest with
  | [] => exact ⟨by decide, by decide, by decide⟩
  | b :: rest =>
    have hlock : [0x00] <+: b :: rest ↔ b = lockByte := by
      rw [List.cons_prefix_cons, eq_comm]
      exact and_iff_left List.nil_prefix
    have hrecord : b :: rest = [0x01] ↔ b = recordByte ∧ rest = [] := List.cons.injEq .. ▸ Iff.rfl
    have hne : lockByte ≠ recordByte := by decide
    have hkind : kindOfRest (b :: rest)
        = if b = lockByte then .lock else if b = recordByte ∧ rest = [] then .record else .other :=
      rfl
    refine ⟨?_, ?_, ?_⟩
    · rw [hkind, hlock]
      grind
    · rw [hkind, hrecord]
      grind
    · rw [hkind, hlock, Ne, hrecord]
      grind

/-- What stands behind the prefix has one role. -/
theorem eq_of_standsFor {k k' : Kind} (h : StandsFor rest k) (h' : StandsFor rest k') : k = k' := by
  cases k with
  | lock => exact (h'.lock.2 (h.lock.1 rfl)).symm
  | record => exact (h'.record.2 (h.record.1 rfl)).symm
  | other => exact (h'.other.2 (h.other.1 rfl)).symm

theorem hasWidth_of_splits (h : Splits vidLen key part e rest) : e.hasWidth vidLen = true :=
  Edge.hasWidth_iff.2 ⟨h.src, h.dst⟩

/-- A key splits in one way only. -/
theorem eq_of_splits (h : Splits vidLen key part e rest) (h' : Splits vidLen key part' e' rest') :
    part = part' ∧ e = e' ∧ rest = rest' := by
  have hboth : edgePrefix vidLen part e ++ rest = edgePrefix vidLen part' e' ++ rest' :=
    h.key.symm.trans h'.key
  obtain ⟨hpre, hrest⟩ := List.append_inj hboth (by rw [length_edgePrefix, length_edgePrefix])
  obtain ⟨hpart, hedge⟩ := edgePrefix_inj (hasWidth_of_splits h) (hasWidth_of_splits h') hpre
  exact ⟨hpart, hedge, hrest⟩

/-- The components of a key that splits, one behind the other. -/
theorem components_of_splits (h : Splits vidLen key part e rest) :
    key = edgeTag :: (Ordered.ofUInt32 part ++ (e.src ++ (Ordered.ofInt32 e.type ++
      (Ordered.ofInt64 e.rank ++ (e.dst ++ rest))))) := by
  rw [h.key, edgePrefix_append (hasWidth_of_splits h)]

theorem isEdgeKey_of_splits (h : Splits vidLen key part e rest) :
    isEdgeKey vidLen key = true := by
  rw [h.key, isEdgeKey_edgePrefix_append]
  exact h.more

/-- Length and tag decide whether there is a split: every string of the width of a component is
the image of one. -/
theorem exists_splits (h : isEdgeKey vidLen key = true) :
    ∃ part e rest, Splits vidLen key part e rest := by
  obtain ⟨hlen, body, rfl⟩ := isEdgeKey_iff.1 h
  simp only [recordLength, prefixLength, List.length_cons] at hlen
  obtain ⟨part, body, rfl, hpart⟩ := Bytes.exists_append_of_le 4 body (by omega)
  simp only [List.length_append] at hlen
  obtain ⟨src, body, rfl, hsrc⟩ := Bytes.exists_append_of_le vidLen body (by omega)
  simp only [List.length_append] at hlen
  obtain ⟨type, body, rfl, htype⟩ := Bytes.exists_append_of_le 4 body (by omega)
  simp only [List.length_append] at hlen
  obtain ⟨rank, body, rfl, hrank⟩ := Bytes.exists_append_of_le 8 body (by omega)
  simp only [List.length_append] at hlen
  obtain ⟨dst, rest, rfl, hdst⟩ := Bytes.exists_append_of_le vidLen body (by omega)
  simp only [List.length_append] at hlen
  obtain ⟨part, rfl⟩ := Ordered.numbering_uInt32.exists_image hpart
  obtain ⟨type, rfl⟩ := Ordered.numbering_int32.exists_image htype
  obtain ⟨rank, rfl⟩ := Ordered.numbering_int64.exists_image hrank
  have hwidth : Edge.hasWidth ⟨src, type, rank, dst⟩ vidLen = true :=
    Edge.hasWidth_iff.2 ⟨hsrc, hdst⟩
  exact ⟨part, ⟨src, type, rank, dst⟩, rest, hsrc, hdst, (edgePrefix_append hwidth part rest).symm,
    List.length_pos_iff.1 (by omega)⟩

/-! ### Roles and parts of a key -/

theorem kind_of_splits (h : Splits vidLen key part e rest) :
    kind vidLen key = kindOfRest rest := by
  rw [h.key, kind_edgePrefix_append]

/-- Parsing finds the split. -/
theorem parse?_of_splits (h : Splits vidLen key part e rest) :
    parse? vidLen key = some ⟨part, e, kindOfRest rest⟩ := by
  have hpart := Ordered.toUInt32?_append part []
  have htype := Ordered.toInt32?_append e.type []
  have hrank := Ordered.toInt64?_append e.rank []
  rw [List.append_nil] at hpart htype hrank
  rw [parse?, if_pos (isEdgeKey_of_splits h), kind_of_splits h, components_of_splits h]
  have htag : ∀ bs, Bytes.take? 1 (edgeTag :: bs) = some ([edgeTag], bs) :=
    Bytes.take?_append (show [edgeTag].length = 1 from rfl)
  simp [htag, Bytes.take?_append (Ordered.length_ofUInt32 part),
    Bytes.take?_append (Ordered.length_ofInt32 e.type),
    Bytes.take?_append (Ordered.length_ofInt64 e.rank), Bytes.take?_append h.src,
    Bytes.take?_append h.dst, hpart, htype, hrank]

theorem parse?_of_not_isEdgeKey (h : ¬isEdgeKey vidLen key = true) : parse? vidLen key = none :=
  if_neg h

theorem kind_of_not_isEdgeKey (h : ¬isEdgeKey vidLen key = true) : kind vidLen key = .other :=
  if_neg h

/-- Parsing finds exactly the splits. -/
theorem parse?_eq_some_iff {p : Parsed} :
    parse? vidLen key = some p ↔
      ∃ rest, Splits vidLen key p.part p.edge rest ∧ StandsFor rest p.kind := by
  constructor
  · intro h
    by_cases hkey : isEdgeKey vidLen key = true
    · obtain ⟨part, e, rest, hsplit⟩ := exists_splits hkey
      rw [parse?_of_splits hsplit] at h
      obtain rfl := Option.some.inj h
      exact ⟨rest, hsplit, standsFor_kindOfRest rest⟩
    · rw [parse?_of_not_isEdgeKey hkey] at h
      cases h
  · rintro ⟨rest, hsplit, hrole⟩
    rw [parse?_of_splits hsplit, eq_of_standsFor (standsFor_kindOfRest rest) hrole]

end Key

/-! ### Keys read by positions -/

namespace Scan

open Key

variable {α β γ : Type} {xs front back : List γ}

/-- A reader comes to a result, without a read out of range. -/
def Gives (m : Scan Empty α) (a : α) : Prop := ∀ c, m c = some (.ok a, c)

theorem Gives.pure (a : α) : Gives (Pure.pure a) a := fun _ => rfl

theorem Gives.bind {m : Scan Empty α} {k : α → Scan Empty β} {a : α} {b : β} (hm : Gives m a)
    (hk : Gives (k a) b) : Gives (m >>= k) b := by
  intro c
  simp only [Bind.bind, hm c]
  exact hk c

theorem Gives.element {x : γ} {i : Nat} (h : xs = front ++ x :: back) (hi : front.length = i) :
    Gives (Scan.element xs i) x := by
  intro c
  subst h hi
  simp [Scan.element]

theorem Gives.slice {part : List γ} {i j : Nat} (h : xs = front ++ (part ++ back))
    (hi : front.length = i) (hj : i + part.length = j) : Gives (Scan.slice xs i j) part := by
  intro c
  subst h hi hj
  simp [Scan.slice]

theorem Gives.tail {i : Nat} (h : xs = front ++ back) (hi : front.length = i) :
    Gives (Scan.slice xs i xs.length) back := by
  have hend : xs = front ++ (back ++ []) := by rw [List.append_nil, h]
  refine Gives.slice hend hi ?_
  rw [h, List.length_append, hi]

/-- Goes on with a key that is long enough and has the tag of edges. -/
def guarded (vidLen : Nat) (key : Bytes) (other : α) (m : Scan Empty α) : Scan Empty α := do
  if key.length < recordLength vidLen then return other
  else
    let tag ← element key 0
    if tag ≠ edgeTag then return other else m

/-- The role of a key, with the byte that decides it read at its index. -/
def kind (vidLen : Nat) (key : Bytes) : Scan Empty Kind :=
  guarded vidLen key .other do
    let b ← element key (recordLength vidLen - 1)
    if b = lockByte then return .lock
    else if b = recordByte ∧ key.length = recordLength vidLen then return .record
    else return .other

/-- The components of a key, each read at an offset that is counted up. -/
def parse (vidLen : Nat) (key : Bytes) : Scan Empty (Option Parsed) :=
  guarded vidLen key none do
    let off := 1
    let some part := Ordered.toUInt32? (← slice key off key.length) | return none
    let off := off + 4
    let src ← slice key off (off + vidLen)
    let off := off + vidLen
    let some type := Ordered.toInt32? (← slice key off key.length) | return none
    let off := off + 4
    let some rank := Ordered.toInt64? (← slice key off key.length) | return none
    let off := off + 8
    let dst ← slice key off (off + vidLen)
    return some ⟨part, ⟨src, type, rank, dst⟩, ← kind vidLen key⟩

variable {vidLen : Nat} {key : Bytes} {other a : α} {m : Scan Empty α}

theorem Gives.guarded (hkey : isEdgeKey vidLen key = true) (hm : Gives m a) :
    Gives (Scan.guarded vidLen key other m) a := by
  obtain ⟨hlen, body, rfl⟩ := isEdgeKey_iff.1 hkey
  rw [Scan.guarded, if_neg (Nat.not_lt.2 hlen)]
  refine Gives.bind (Gives.element (List.nil_append (edgeTag :: body)).symm rfl) ?_
  rwa [if_neg (fun hne => hne rfl)]

theorem Gives.guarded_other (hkey : ¬isEdgeKey vidLen key = true) :
    Gives (Scan.guarded vidLen key other m) other := by
  rw [Scan.guarded]
  by_cases hlen : key.length < recordLength vidLen
  · rw [if_pos hlen]
    exact .pure other
  · rw [if_neg hlen]
    cases key with
    | nil => simp [recordLength] at hlen
    | cons tag body =>
      have htag : tag ≠ edgeTag := by
        rintro rfl
        exact hkey (isEdgeKey_iff.2 ⟨Nat.not_lt.1 hlen, body, rfl⟩)
      refine Gives.bind (Gives.element (List.nil_append (tag :: body)).symm rfl) ?_
      rw [if_pos htag]
      exact .pure other

/-- The byte that decides the role of a key is there. -/
theorem gives_kind (vidLen : Nat) (key : Bytes) :
    Gives (kind vidLen key) (Key.kind vidLen key) := by
  by_cases hkey : isEdgeKey vidLen key = true
  · obtain ⟨part, e, rest, hsplit⟩ := exists_splits hkey
    obtain ⟨b, rest, rfl⟩ := List.exists_cons_of_ne_nil hsplit.more
    have hlen : key.length = recordLength vidLen ↔ rest = [] := by
      rw [hsplit.key, List.length_append, length_edgePrefix, recordLength, List.length_cons,
        ← List.length_eq_zero_iff]
      omega
    rw [kind_of_splits hsplit, kind]
    refine Gives.guarded hkey (Gives.bind (Gives.element hsplit.key ?_) ?_)
    · rw [length_edgePrefix, recordLength, Nat.add_sub_cancel]
    · simp only [hlen, kindOfRest]
      split
      · exact .pure _
      · split <;> exact .pure _
  · rw [kind_of_not_isEdgeKey hkey]
    exact .guarded_other hkey

/-- No component lies beyond the end of a key. -/
theorem gives_parse (vidLen : Nat) (key : Bytes) :
    Gives (parse vidLen key) (parse? vidLen key) := by
  by_cases hkey : isEdgeKey vidLen key = true
  · obtain ⟨part, e, rest, hsplit⟩ := exists_splits hkey
    have hkind := gives_kind vidLen key
    rw [kind_of_splits hsplit] at hkind
    -- the key as it is seen from the offset of each component
    have hpart : key = [edgeTag] ++ (Ordered.ofUInt32 part ++ (e.src ++ (Ordered.ofInt32 e.type ++
        (Ordered.ofInt64 e.rank ++ (e.dst ++ rest))))) := components_of_splits hsplit
    have hsrc := hpart
    rw [← List.append_assoc] at hsrc
    have htype := hsrc
    rw [← List.append_assoc] at htype
    have hrank := htype
    rw [← List.append_assoc] at hrank
    have hdst := hrank
    rw [← List.append_assoc] at hdst
    rw [parse?_of_splits hsplit, parse]
    refine Gives.guarded hkey (Gives.bind (Gives.tail hpart rfl) ?_)
    rw [Ordered.toUInt32?_append]
    refine Gives.bind (Gives.slice hsrc (by simp) (by simp [hsplit.src])) ?_
    refine Gives.bind (Gives.tail htype (by simp [hsplit.src]; omega)) ?_
    rw [Ordered.toInt32?_append]
    refine Gives.bind (Gives.tail hrank (by simp [hsplit.src]; omega)) ?_
    rw [Ordered.toInt64?_append]
    refine Gives.bind (Gives.slice hdst (by simp [hsplit.src]; omega) (by simp [hsplit.dst])) ?_
    exact Gives.bind hkind (.pure _)
  · rw [parse?_of_not_isEdgeKey hkey]
    exact .guarded_other hkey

end Scan

namespace Key

variable {vidLen : Nat} {key : Bytes}

/-- **The grammar of edge keys is decided.**  Parsing a byte string gives the parts of the split
that it has, if it has one, and its role; there is no other split.  A byte string without one has
no role.  Read by positions it gives the same, and no read is out of range. -/
theorem edge_keys_parsed (vidLen : Nat) (key : Bytes) :
    (∀ p, parse? vidLen key = some p ↔
      ∃ rest, Splits vidLen key p.part p.edge rest ∧ StandsFor rest p.kind) ∧
    (∀ part e rest part' e' rest', Splits vidLen key part e rest →
      Splits vidLen key part' e' rest' → part = part' ∧ e = e' ∧ rest = rest') ∧
    (∀ p, parse? vidLen key = some p → p.kind = kind vidLen key) ∧
    (parse? vidLen key = none → kind vidLen key = .other) ∧
    (Scan.parse vidLen key).Gives (parse? vidLen key) ∧
    (Scan.kind vidLen key).Gives (kind vidLen key) := by
  refine ⟨fun _ => parse?_eq_some_iff, fun _ _ _ _ _ _ => eq_of_splits, fun p h => ?_, fun h => ?_,
    Scan.gives_parse vidLen key, Scan.gives_kind vidLen key⟩
  · obtain ⟨rest, hsplit, hrole⟩ := parse?_eq_some_iff.1 h
    rw [kind_of_splits hsplit]
    exact eq_of_standsFor hrole (standsFor_kindOfRest rest)
  · refine kind_of_not_isEdgeKey fun hkey => ?_
    obtain ⟨part, e, rest, hsplit⟩ := exists_splits hkey
    rw [parse?_of_splits hsplit] at h
    cases h

/-- An edge of negative type in a space of width one. -/
def sampleReverse : Edge := ⟨[1], -5, 7, [2]⟩

/-- The key of a lock has its role at the width of its space and none at a greater one. -/
theorem edge_keys_parsed_sample :
    parse? 1 (lock 1 3 sampleReverse [9]) = some ⟨3, sampleReverse, .lock⟩ ∧
      kind 1 (lock 1 3 sampleReverse [9]) = .lock ∧
      parse? 2 (lock 1 3 sampleReverse [9]) = none ∧
      kind 2 (lock 1 3 sampleReverse [9]) = .other := by
  obtain ⟨hparse, -, hkind, -, -, -⟩ := edge_keys_parsed 1 (lock 1 3 sampleReverse [9])
  obtain ⟨-, -, -, hnone, -, -⟩ := edge_keys_parsed 2 (lock 1 3 sampleReverse [9])
  have hlock : parse? 1 (lock 1 3 sampleReverse [9]) = some ⟨3, sampleReverse, .lock⟩ :=
    (hparse _).2 ⟨[0, 9], ⟨rfl, rfl, rfl, by decide⟩, standsFor_kindOfRest _⟩
  have hwider : parse? 2 (lock 1 3 sampleReverse [9]) = none := by decide
  exact ⟨hlock, (hkind _ hlock).symm, hwider, hnone hwider⟩

end Key

end EdgeDeletion
