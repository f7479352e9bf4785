/-
The families of keys in a partition.

Every key starts with the tag of its family, so keys of edges, index entries and log
entries never meet.  Within the family of edges all components have a fixed width
once the vertices have the width of the space:

* `edgePrefix_inj` — a prefix determines the partition and the edge;
* `eq_of_edgePrefix` — no key stands below the prefixes of two edges of a partition;
* `kind_edgePrefix_append` — the role of a key is read off the byte after the prefix.

The keys of the log are determined by their numbers (`deferral_inj`), and those of the
index entries determine the partition and the index (`entry_index_inj`).
-/
import EdgeDeletion.Index
import EdgeDeletion.OperationLog

namespace EdgeDeletion

/-! ### Images of numbers -/

namespace Ordered

open Bytes

theorem bigEndian_inj {w m n : Nat} (hm : m < Nat.pow 256 w) (hn : n < Nat.pow 256 w)
    (h : bigEndian w m = bigEndian w n) : m = n := by
  rw [← ofBigEndian_bigEndian hm, h, ofBigEndian_bigEndian hn]

/-- A numbering of the values of a type, of which images of some width are made. -/
structure Numbering {α : Type} (w : Nat) (number : α → Nat) (value : Nat → α) : Prop where
  lt : ∀ v, number v < Nat.pow 256 w
  value_number : ∀ v, value (number v) = v
  number_value : ∀ n < Nat.pow 256 w, number (value n) = n

namespace Numbering

variable {α : Type} {w : Nat} {number : α → Nat} {value : Nat → α}

/-- An image determines its value. -/
theorem inj (h : Numbering w number value) {v v' : α}
    (himage : bigEndian w (number v) = bigEndian w (number v')) : v = v' := by
  have hnumber := bigEndian_inj (h.lt v) (h.lt v') himage
  rw [← h.value_number v, hnumber, h.value_number]

/-- A value is read from its image, whatever follows. -/
theorem read_append (h : Numbering w number value) (v : α) (rest : Bytes) :
    (readBigEndian? w (bigEndian w (number v) ++ rest)).map value = some v := by
  rw [readBigEndian?, take?_append (length_bigEndian ..)]
  show some (value (ofBigEndian (bigEndian w (number v)))) = some v
  rw [ofBigEndian_bigEndian (h.lt v), h.value_number]

/-- Every string of the right length is the image of a value. -/
theorem exists_image (h : Numbering w number value) {bs : Bytes} (hlen : bs.length = w) :
    ∃ v, bs = bigEndian w (number v) := by
  subst hlen
  refine ⟨value (ofBigEndian bs), ?_⟩
  rw [h.number_value _ (ofBigEndian_lt bs), bigEndian_ofBigEndian]

end Numbering

theorem numbering_uInt32 : Numbering 4 UInt32.toNat UInt32.ofNat where
  lt v := v.toNat_lt
  value_number _ := UInt32.ofNat_toNat
  number_value _ hn := UInt32.toNat_ofNat_of_lt' hn

theorem numbering_uInt64 : Numbering 8 UInt64.toNat UInt64.ofNat where
  lt v := v.toNat_lt
  value_number _ := UInt64.ofNat_toNat
  number_value _ hn := UInt64.toNat_ofNat_of_lt' hn

theorem numbering_int32 :
    Numbering 4 (fun v : Int32 => (v.toInt + 0x80000000).toNat)
      fun n => Int32.ofInt ((n : Int) - 0x80000000) where
  lt v := by
    have hpow : Nat.pow 256 4 = 0x100000000 := rfl
    have hlow := v.le_toInt
    have hhigh := v.toInt_lt
    omega
  value_number v := by
    have hlow := v.le_toInt
    have hval : ((v.toInt + 0x80000000).toNat : Int) - 0x80000000 = v.toInt := by omega
    rw [hval, Int32.ofInt_toInt]
  number_value n hn := by
    have hpow : Nat.pow 256 4 = 0x100000000 := rfl
    rw [Int32.toInt_ofInt_of_le (by omega) (by omega), Int.sub_add_cancel, Int.toNat_natCast]

theorem numbering_int64 :
    Numbering 8 (fun v : Int64 => (v.toInt + 0x8000000000000000).toNat)
      fun n => Int64.ofInt ((n : Int) - 0x8000000000000000) where
  lt v := by
    have hpow : Nat.pow 256 8 = 0x10000000000000000 := rfl
    have hlow := v.le_toInt
    have hhigh := v.toInt_lt
    omega
  value_number v := by
    have hlow := v.le_toInt
    have hval : ((v.toInt + 0x8000000000000000).toNat : Int) - 0x8000000000000000 = v.toInt := by
      omega
    rw [hval, Int64.ofInt_toInt]
  number_value n hn := by
    have hpow : Nat.pow 256 8 = 0x10000000000000000 := rfl
    rw [Int64.toInt_ofInt_of_le (by omega) (by omega), Int.sub_add_cancel, Int.toNat_natCast]

theorem ofUInt32_inj {a b : UInt32} (h : ofUInt32 a = ofUInt32 b) : a = b :=
  numbering_uInt32.inj h

theorem ofUInt64_inj {a b : UInt64} (h : ofUInt64 a = ofUInt64 b) : a = b :=
  numbering_uInt64.inj h

theorem ofInt32_inj {a b : Int32} (h : ofInt32 a = ofInt32 b) : a = b := numbering_int32.inj h

theorem ofInt64_inj {a b : Int64} (h : ofInt64 a = ofInt64 b) : a = b := numbering_int64.inj h

@[simp] theorem length_ofUInt32 (v : UInt32) : (ofUInt32 v).length = 4 := length_bigEndian ..

@[simp] theorem length_ofUInt64 (v : UInt64) : (ofUInt64 v).length = 8 := length_bigEndian ..

@[simp] theorem length_ofInt32 (v : Int32) : (ofInt32 v).length = 4 := length_bigEndian ..

@[simp] theorem length_ofInt64 (v : Int64) : (ofInt64 v).length = 8 := length_bigEndian ..

theorem toUInt32?_append (v : UInt32) (rest : Bytes) :
    toUInt32? (ofUInt32 v ++ rest) = some v := numbering_uInt32.read_append v rest

theorem toInt32?_append (v : Int32) (rest : Bytes) : toInt32? (ofInt32 v ++ rest) = some v :=
  numbering_int32.read_append v rest

theorem toInt64?_append (v : Int64) (rest : Bytes) : toInt64? (ofInt64 v ++ rest) = some v :=
  numbering_int64.read_append v rest

end Ordered

theorem Edge.hasWidth_iff {e : Edge} {vidLen : Nat} :
    e.hasWidth vidLen = true ↔ e.src.length = vidLen ∧ e.dst.length = vidLen := by
  simp [Edge.hasWidth]

namespace Key

/-! ### Tags -/

/-- The tag is the first byte of all that follows a prefix of an edge. -/
theorem head?_of_edgePrefix {vidLen : Nat} {part : PartId} {e : Edge} {k : Bytes}
    (h : edgePrefix vidLen part e <+: k) : k.head? = some edgeTag := by
  obtain ⟨rest, rfl⟩ := h
  rfl

theorem head?_record (vidLen : Nat) (part : PartId) (e : Edge) :
    (record vidLen part e).head? = some edgeTag := rfl

theorem head?_entry (vidLen : Nat) (part : PartId) (index : IndexId) (e : Edge) (image : Bytes) :
    (entry vidLen part index e image).head? = some indexTag := rfl

theorem head?_of_indexPrefix {part : PartId} {i : IndexId} {k : Bytes}
    (h : indexPrefix part i <+: k) : k.head? = some indexTag := by
  obtain ⟨rest, rfl⟩ := h
  rfl

theorem head?_deferral (part : PartId) (sequence : UInt64) :
    (deferral part sequence).head? = some operationTag := rfl

/-- A key of the family of edges or of indexes is not a key of the log. -/
theorem ne_deferral_of_head? {k : Bytes} (h : k.head? ≠ some operationTag) (part : PartId)
    (sequence : UInt64) : k ≠ deferral part sequence := by
  rintro rfl
  exact h (head?_deferral part sequence)

/-! ### Keys of edges -/

theorem edgePrefix_prefix_record (vidLen : Nat) (part : PartId) (e : Edge) :
    edgePrefix vidLen part e <+: record vidLen part e := List.prefix_append _ _

/-- The components of a key below a prefix, one behind the other. -/
theorem edgePrefix_append {vidLen : Nat} {e : Edge} (he : e.hasWidth vidLen = true)
    (part : PartId) (rest : Bytes) : edgePrefix vidLen part e ++ rest
      = edgeTag :: (Ordered.ofUInt32 part ++ (e.src ++ (Ordered.ofInt32 e.type ++
        (Ordered.ofInt64 e.rank ++ (e.dst ++ rest))))) := by
  obtain ⟨hsrc, hdst⟩ := Edge.hasWidth_iff.1 he
  rw [edgePrefix, header, Bytes.fit_eq_self hsrc, Bytes.fit_eq_self hdst]
  simp only [List.cons_append, List.append_assoc]

/-- A prefix determines its partition and, if the vertices have the width of the space, its
edge. -/
theorem edgePrefix_inj {vidLen : Nat} {part part' : PartId} {e e' : Edge}
    (he : e.hasWidth vidLen = true) (he' : e'.hasWidth vidLen = true)
    (h : edgePrefix vidLen part e = edgePrefix vidLen part' e') : part = part' ∧ e = e' := by
  obtain ⟨src, type, rank, dst⟩ := e
  obtain ⟨src', type', rank', dst'⟩ := e'
  rw [Edge.hasWidth_iff] at he he'
  simp only [edgePrefix, header, Bytes.fit_eq_self he.1, Bytes.fit_eq_self he.2,
    Bytes.fit_eq_self he'.1, Bytes.fit_eq_self he'.2] at h
  -- the components are compared from the back, where each has the same length on both sides
  obtain ⟨h, hdst⟩ := List.append_inj' h (by rw [he.2, he'.2])
  obtain ⟨h, hrank⟩ := List.append_inj' h (by simp)
  obtain ⟨h, htype⟩ := List.append_inj' h (by simp)
  obtain ⟨h, hsrc⟩ := List.append_inj' h (by rw [he.1, he'.1])
  have hpart := Ordered.ofUInt32_inj (List.cons.inj h).2
  exact ⟨hpart, by rw [hsrc, Ordered.ofInt32_inj htype, Ordered.ofInt64_inj hrank, hdst]⟩

/-- No key stands below two prefixes. -/
theorem edgePrefix_unique {vidLen : Nat} {part part' : PartId} {e e' : Edge} {k : Bytes}
    (he : e.hasWidth vidLen = true) (he' : e'.hasWidth vidLen = true)
    (h : edgePrefix vidLen part e <+: k) (h' : edgePrefix vidLen part' e' <+: k) :
    part = part' ∧ e = e' := by
  have hlen : (edgePrefix vidLen part e).length = (edgePrefix vidLen part' e').length := by
    rw [length_edgePrefix, length_edgePrefix]
  have hpre : edgePrefix vidLen part e = edgePrefix vidLen part' e' :=
    (List.prefix_of_prefix_length_le h h' (Nat.le_of_eq hlen)).eq_of_length hlen
  exact edgePrefix_inj he he' hpre

/-- No key stands below the prefixes of two edges of a partition. -/
theorem eq_of_edgePrefix {vidLen : Nat} {part : PartId} {e e' : Edge} {k : Bytes}
    (he : e.hasWidth vidLen = true) (he' : e'.hasWidth vidLen = true)
    (h : edgePrefix vidLen part e <+: k) (h' : edgePrefix vidLen part e' <+: k) : e = e' :=
  (edgePrefix_unique he he' h h').2

/-- The role of a key below a prefix. -/
def kindOfRest : Bytes → Kind
  | [] => .other
  | b :: rest =>
    if b = lockByte then .lock
    else if b = recordByte ∧ rest = [] then .record
    else .other

theorem isEdgeKey_iff {vidLen : Nat} {key : Bytes} : isEdgeKey vidLen key = true ↔
    recordLength vidLen ≤ key.length ∧ ∃ body, key = edgeTag :: body := by
  rw [isEdgeKey, Bool.and_eq_true, decide_eq_true_eq, beq_iff_eq, List.head?_eq_some_iff]

/-- One byte behind a prefix makes the key of an edge long enough. -/
theorem isEdgeKey_edgePrefix_append (vidLen : Nat) (part : PartId) (e : Edge) (rest : Bytes) :
    isEdgeKey vidLen (edgePrefix vidLen part e ++ rest) = true ↔ rest ≠ [] := by
  have hhead := head?_of_edgePrefix (List.prefix_append (edgePrefix vidLen part e) rest)
  rw [isEdgeKey_iff, and_iff_left (List.head?_eq_some_iff.1 hhead), List.length_append,
    length_edgePrefix, recordLength, Nat.add_le_add_iff_left, ← List.length_pos_iff]
  rfl

theorem kind_edgePrefix_append (vidLen : Nat) (part : PartId) (e : Edge) (rest : Bytes) :
    kind vidLen (edgePrefix vidLen part e ++ rest) = kindOfRest rest := by
  have hdrop : (edgePrefix vidLen part e ++ rest).drop (prefixLength vidLen) = rest := by
    rw [← length_edgePrefix vidLen part e, List.drop_left]
  cases rest with
  | nil =>
    rw [kind, if_neg fun hkey => (isEdgeKey_edgePrefix_append vidLen part e []).1 hkey rfl]
    rfl
  | cons b rest =>
    rw [kind, if_pos ((isEdgeKey_edgePrefix_append vidLen part e _).2 (List.cons_ne_nil b rest)),
      hdrop]
    rfl

theorem kind_record (vidLen : Nat) (part : PartId) (e : Edge) :
    kind vidLen (record vidLen part e) = .record := by
  rw [record, kind_edgePrefix_append]
  rfl

theorem kind_lock (vidLen : Nat) (part : PartId) (e : Edge) (lockId : Bytes) :
    kind vidLen (lock vidLen part e lockId) = .lock := by
  rw [lock, kind_edgePrefix_append]
  rfl

theorem kind_stale (vidLen : Nat) (part : PartId) (e : Edge) (version : UInt64) :
    kind vidLen (stale vidLen part e version) = .other := by
  rw [stale, record, List.append_assoc, kind_edgePrefix_append]
  rfl

/-- Below a prefix only the record key has the role of the record. -/
theorem eq_record_of_kind {vidLen : Nat} {part : PartId} {e : Edge} {k : Bytes}
    (h : edgePrefix vidLen part e <+: k) (hk : kind vidLen k = .record) :
    k = record vidLen part e := by
  obtain ⟨rest, rfl⟩ := h
  rw [kind_edgePrefix_append] at hk
  match rest, hk with
  | [], hk => simp [kindOfRest] at hk
  | b :: rest, hk =>
    simp only [kindOfRest] at hk
    split at hk
    · simp at hk
    · split at hk
      · rename_i hb
        rw [hb.1, hb.2, record]
      · simp at hk

/-! ### Other families -/

theorem length_deferral (part : PartId) (sequence : UInt64) :
    (deferral part sequence).length = 14 := by
  simp [deferral, operationPrefix, header]

theorem isDeferral_deferral (part : PartId) (sequence : UInt64) :
    isDeferral (deferral part sequence) = true := by
  have hlast : (deferral part sequence).getLast? = some deferralByte := List.getLast?_concat
  simp [isDeferral, length_deferral, head?_deferral, hlast]

theorem deferral_inj {part part' : PartId} {a b : UInt64}
    (h : deferral part a = deferral part' b) : a = b := by
  have h := (List.append_inj' h rfl).1
  exact Ordered.ofUInt64_inj (List.append_inj' h (by simp)).2

/-! ### Index entries -/

theorem length_indexPrefix (part : PartId) (index : IndexId) :
    (indexPrefix part index).length = 9 := by
  simp [indexPrefix, header]

theorem indexPrefix_inj {part part' : PartId} {i i' : IndexId}
    (h : indexPrefix part i = indexPrefix part' i') : part = part' ∧ i = i' := by
  obtain ⟨hheader, hindex⟩ := List.append_inj' h (by simp)
  exact ⟨Ordered.ofUInt32_inj (List.cons.inj hheader).2, Ordered.ofUInt32_inj hindex⟩

theorem indexPrefix_prefix_entry (vidLen : Nat) (part : PartId) (index : IndexId) (e : Edge)
    (image : Bytes) : indexPrefix part index <+: entry vidLen part index e image := by
  simp only [entry, List.append_assoc]
  exact List.prefix_append ..

section Entries

variable {vidLen vidLen' : Nat} {part part' : PartId} {i i' : IndexId} {e e' : Edge}
  {image image' : Bytes}

/-- An entry starts like those of its own index in its own partition only. -/
theorem of_indexPrefix_entry (h : indexPrefix part i <+: entry vidLen part' i' e image) :
    part = part' ∧ i = i' := by
  have hlen : (indexPrefix part i).length = (indexPrefix part' i').length := by
    rw [length_indexPrefix, length_indexPrefix]
  have hown := indexPrefix_prefix_entry vidLen part' i' e image
  exact indexPrefix_inj
    ((List.prefix_of_prefix_length_le h hown (Nat.le_of_eq hlen)).eq_of_length hlen)

/-- The key of an index entry determines the partition and the index. -/
theorem entry_index_inj
    (h : entry vidLen part i e image = entry vidLen' part' i' e' image') :
    part = part' ∧ i = i' :=
  of_indexPrefix_entry (h ▸ indexPrefix_prefix_entry vidLen part i e image)

end Entries

end Key

end EdgeDeletion
