/-
The entries of different edges have different keys.

In the key of an entry the image stands between the index and the edge without a mark of
where it ends.  It can still be told apart, because all images under the columns of one
index have the same length.

* `entry_inj` — with images of one length, the key of an entry determines the partition,
  the image and what it says of the edge;
* `entries_apart` — keys of entries meet neither each other nor keys of another family,
  and what is done to one edge leaves the entries of the others as they are.
-/
import EdgeDeletion.Proofs.Contents
import EdgeDeletion.Proofs.ImageForm
import EdgeDeletion.Proofs.KeyLayout

namespace EdgeDeletion

namespace Key

variable {vidLen : Nat} {part part' : PartId} {i i' : IndexId} {e e' : Edge}
  {image image' : Bytes}

/-- The key of an entry determines its components, but for the type of the edge, which it does not
mention. -/
theorem entry_inj (he : e.hasWidth vidLen = true) (he' : e'.hasWidth vidLen = true)
    (hlen : image.length = image'.length)
    (h : entry vidLen part i e image = entry vidLen part' i' e' image') :
    part = part' ∧ i = i' ∧ image = image' ∧ e.src = e'.src ∧ e.rank = e'.rank ∧
      e.dst = e'.dst := by
  obtain ⟨hpart, hindex⟩ := entry_index_inj h
  rw [Edge.hasWidth_iff] at he he'
  simp only [entry, Bytes.fit_eq_self he.1, Bytes.fit_eq_self he.2, Bytes.fit_eq_self he'.1,
    Bytes.fit_eq_self he'.2] at h
  -- the components are compared from the back, where each has the same length on both sides
  obtain ⟨h, hdst⟩ := List.append_inj' h (by rw [he.2, he'.2])
  obtain ⟨h, hrank⟩ := List.append_inj' h (by simp)
  obtain ⟨h, hsrc⟩ := List.append_inj' h (by rw [he.1, he'.1])
  obtain ⟨-, himage⟩ := List.append_inj' h hlen
  exact ⟨hpart, hindex, himage, hsrc, Ordered.ofInt64_inj hrank, hdst⟩

/-- A byte string that starts like a key of one family does not start like a key of another. -/
theorem not_prefix_of_head? {start k : Bytes} {a b : UInt8} (hstart : start.head? = some a)
    (hk : k.head? = some b) (hne : a ≠ b) : ¬start <+: k := by
  rintro ⟨rest, rfl⟩
  rw [List.head?_append, hstart] at hk
  exact hne (Option.some.inj hk)

theorem head?_edgePrefix (vidLen : Nat) (part : PartId) (e : Edge) :
    (edgePrefix vidLen part e).head? = some edgeTag := rfl

theorem head?_operationPrefix (part : PartId) :
    (operationPrefix part).head? = some operationTag := rfl

/-- **The entries of different edges have different keys.**  Take the rows of two edges that have
images under the columns of one index.  Entries with the same key are those of one partition, one
image and one edge, as far as the key says.  Entries of different indexes or partitions never have
the same key, whatever their images are, and the keys that start like those of an index in a
partition are those of its entries there.  No key of an entry starts like the keys of an edge or of
the log, and none of these starts like it.  So the entry of an edge stays where that of another
edge of the type is removed, and also where all keys of an edge are. -/
theorem entries_apart {vidLen : Nat} {index : Index} {row row' : Row} {image image' : Bytes}
    {e e' : Edge} (h : Image.ofRow row index.columns = .ok image)
    (h' : Image.ofRow row' index.columns = .ok image')
    (he : e.hasWidth vidLen = true) (he' : e'.hasWidth vidLen = true) (part part' : PartId) :
    (entry vidLen part index.id e image = entry vidLen part' index.id e' image' →
      part = part' ∧ image = image' ∧ e.src = e'.src ∧ e.rank = e'.rank ∧ e.dst = e'.dst) ∧
    (∀ vidLen' p i e'' x, p ≠ part ∨ i ≠ index.id →
      entry vidLen' p i e'' x ≠ entry vidLen part index.id e image) ∧
    (∀ p i, indexPrefix p i <+: entry vidLen part index.id e image ↔ p = part ∧ i = index.id) ∧
    (∀ vidLen' p e'', ¬edgePrefix vidLen' p e'' <+: entry vidLen part index.id e image ∧
      ¬entry vidLen part index.id e image <+: edgePrefix vidLen' p e'') ∧
    (∀ p, ¬operationPrefix p <+: entry vidLen part index.id e image ∧
      ¬entry vidLen part index.id e image <+: operationPrefix p) ∧
    ∀ c : Contents,
      (e.type = index.edgeType → e'.type = index.edgeType → part ≠ part' ∨ e ≠ e' →
        (c.erase (entry vidLen part' index.id e' image')).get? (entry vidLen part index.id e image)
          = c.get? (entry vidLen part index.id e image)) ∧
      ∀ vidLen' p e'', (c.filter fun k => !Bytes.startsWith k (edgePrefix vidLen' p e'')).get?
          (entry vidLen part index.id e image) = c.get? (entry vidLen part index.id e image) := by
  have hlen : image.length = image'.length :=
    (Image.length_of_ofRow h).trans (Image.length_of_ofRow h').symm
  have hhead := head?_entry vidLen part index.id e image
  have hedge : ∀ vidLen' p e'', ¬edgePrefix vidLen' p e'' <+: entry vidLen part index.id e image :=
    fun vidLen' p e'' => not_prefix_of_head? (head?_edgePrefix vidLen' p e'') hhead (by decide)
  refine ⟨fun heq => ?_, fun vidLen' p i e'' x hne heq => ?_, fun p i => ⟨of_indexPrefix_entry, ?_⟩,
    fun vidLen' p e'' => ⟨hedge vidLen' p e'', ?_⟩, fun p => ⟨?_, ?_⟩, fun c => ⟨?_, ?_⟩⟩
  · obtain ⟨hpart, -, hrest⟩ := entry_inj he he' hlen heq
    exact ⟨hpart, hrest⟩
  · obtain ⟨rfl, rfl⟩ := entry_index_inj heq
    simp at hne
  · rintro ⟨rfl, rfl⟩
    exact indexPrefix_prefix_entry ..
  · exact not_prefix_of_head? hhead (head?_edgePrefix vidLen' p e'') (by decide)
  · exact not_prefix_of_head? (head?_operationPrefix p) hhead (by decide)
  · exact not_prefix_of_head? hhead (head?_operationPrefix p) (by decide)
  · intro htype htype' hne
    rw [OrderedMap.get?_erase, if_neg]
    intro heq
    obtain ⟨hpart, -, -, hsrc, hrank, hdst⟩ := entry_inj he he' hlen heq
    obtain ⟨src, type, rank, dst⟩ := e
    obtain ⟨src', type', rank', dst'⟩ := e'
    -- the key says all of the edge but the type, which is that of the index
    simp_all
  · intro vidLen' p e''
    rw [OrderedMap.get?_filter, if_pos]
    simpa using fun hstart => hedge vidLen' p e'' (Bytes.startsWith_iff.1 hstart)

/-- An index on the first byte of a label that may be missing. -/
def labelIndex : Index := ⟨7, 5, "by_label", [⟨⟨"label", .string, true⟩, some 1⟩]⟩

/-- The entry of a parallel edge without a label goes, and the entry of the edge stays. -/
theorem entries_apart_parallel :
    Image.ofRow ⟨[("label", .string "ab")]⟩ labelIndex.columns = .ok [97, 0, 0] ∧
      Image.ofRow ⟨[("label", .null)]⟩ labelIndex.columns = .ok [0, 128, 0] ∧
      ∀ c : Contents,
        (c.erase (entry 1 3 7 ⟨[1], 5, 1, [2]⟩ [0, 128, 0])).get?
            (entry 1 3 7 ⟨[1], 5, 0, [2]⟩ [97, 0, 0])
          = c.get? (entry 1 3 7 ⟨[1], 5, 0, [2]⟩ [97, 0, 0]) := by
  have h : Image.ofRow ⟨[("label", .string "ab")]⟩ labelIndex.columns = .ok [97, 0, 0] := by rfl
  have h' : Image.ofRow ⟨[("label", .null)]⟩ labelIndex.columns = .ok [0, 128, 0] := by rfl
  have he : (Edge.mk [1] 5 0 [2]).hasWidth 1 = true := by decide
  have he' : (Edge.mk [1] 5 1 [2]).hasWidth 1 = true := by decide
  obtain ⟨-, -, -, -, -, hcontents⟩ := entries_apart h h' he he' 3 3
  exact ⟨h, h', fun c => (hcontents c).1 rfl rfl (.inr (by decide))⟩

end Key

end EdgeDeletion
