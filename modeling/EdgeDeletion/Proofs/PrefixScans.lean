/-
What a scan of a partition returns.

The keys with a common prefix are a block of the ascending entries, and the block starts
where the prefix itself would stand.  A scan can therefore begin there and end at the first
key that is different.

* `entries_split` — what stands before the entries of a scan comes before the prefix, and
  what stands behind them comes after it without having it;
* `eq_of_found` — contents and prefix leave one possible result;
* `scan_exact` — a scan takes the fault of its partition if there is one, and otherwise it
  returns the block.
-/
import EdgeDeletion.Proofs.Contents
import Mathlib.Tactic.Set

namespace EdgeDeletion

universe u

open KeyOrder (before)

namespace Store

/-- What a scan has to return: all entries whose key has the prefix, each once and in ascending
order.  They stand together in the contents. -/
structure Found (c : Contents) (start : Bytes) (found : List (Bytes × Bytes)) : Prop where
  mem_iff : ∀ k v, (k, v) ∈ found ↔ c.get? k = some v ∧ start <+: k
  ascending : found.Pairwise fun a b => before a.1 b.1 = true
  once : (found.map Prod.fst).Nodup
  block : ∃ below above, c.entries = below ++ found ++ above ∧
    (∀ e ∈ below, before e.1 start = true) ∧
    ∀ e ∈ above, before start e.1 = true ∧ ¬ start <+: e.1

/-- Entries in ascending order have different keys. -/
theorem nodup_keys {found : List (Bytes × Bytes)}
    (h : found.Pairwise fun a b => before a.1 b.1 = true) : (found.map Prod.fst).Nodup :=
  List.pairwise_map.2 (h.imp KeyOrder.ne_of_before)

/-- Contents and prefix leave one possible result. -/
theorem eq_of_found {c : Contents} {start : Bytes} {found found' : List (Bytes × Bytes)}
    (h : Found c start found) (h' : Found c start found') : found = found' := by
  refine OrderedMap.eq_of_mem_iff h.ascending h'.ascending ?_
  rintro ⟨k, v⟩
  rw [h.mem_iff, h'.mem_iff]

/-- Where a scan begins, everything before it comes before the prefix, and nothing else does. -/
theorem before_start_iff (c : Contents) (start : Bytes) :
    (∀ e ∈ c.entries.takeWhile fun e => before e.1 start, before e.1 start = true) ∧
      ∀ e ∈ c.entries.dropWhile fun e => before e.1 start, before e.1 start = false := by
  have hdown : c.entries.Pairwise fun a b => before b.1 start = true → before a.1 start = true :=
    c.ordered.imp fun hab hb => KeyOrder.trans hab hb
  constructor
  · intro e he
    rw [takeWhile_eq_filter hdown] at he
    exact (List.mem_filter.1 he).2
  · intro e he
    rw [dropWhile_eq_filter hdown] at he
    simpa using (List.mem_filter.1 he).2

/-- What stands before the entries of a scan comes before the prefix, and what stands behind
them comes after it without having it. -/
theorem entries_split (c : Contents) (start : Bytes) :
    ∃ below above, c.entries = below ++ entriesFrom c start ++ above ∧
      (∀ e ∈ below, before e.1 start = true) ∧
      ∀ e ∈ above, before start e.1 = true ∧ ¬ start <+: e.1 := by
  set below := c.entries.takeWhile fun e => before e.1 start with hbelow
  set reached := c.entries.dropWhile fun e => before e.1 start with hreached
  set above := reached.dropWhile fun e => Bytes.startsWith e.1 start with habove
  obtain ⟨hlow, hhigh⟩ := before_start_iff c start
  have hreach : reached = entriesFrom c start ++ above := List.takeWhile_append_dropWhile.symm
  have hsplit : c.entries = below ++ entriesFrom c start ++ above := by
    rw [List.append_assoc, ← hreach, hbelow, hreached, List.takeWhile_append_dropWhile]
  refine ⟨below, above, hsplit, hlow, fun e he => ?_⟩
  -- an entry behind the block that had the prefix would be in the block as well
  have hnot : ¬ start <+: e.1 := by
    intro hpre
    have hmem : e ∈ c.entries := by
      rw [hsplit]
      exact List.mem_append_right _ he
    have hin : e ∈ entriesFrom c start := by
      rw [entriesFrom_eq_filter]
      exact List.mem_filter.2 ⟨hmem, Bytes.startsWith_iff.2 hpre⟩
    have hord := c.ordered
    rw [hsplit] at hord
    have hself : before e.1 e.1 = true :=
      (List.pairwise_append.1 hord).2.2 e (List.mem_append_right _ hin) e he
    simp [KeyOrder.irrefl] at hself
  refine ⟨?_, hnot⟩
  cases hstart : before start e.1 with
  | true => rfl
  | false =>
    have hge : before e.1 start = false :=
      hhigh e (by
        show e ∈ reached
        rw [hreach]
        exact List.mem_append_right _ he)
    exact absurd (KeyOrder.connected hstart hge ▸ List.prefix_refl start) hnot

theorem found_entriesFrom (c : Contents) (start : Bytes) : Found c start (entriesFrom c start) where
  mem_iff _ _ := mem_entriesFrom
  ascending := entriesFrom_ordered c start
  once := nodup_keys (entriesFrom_ordered c start)
  block := entries_split c start

variable {τ : Type u}

/-- **Scans are exact.**  A scan takes the fault that is pending at its partition and no other
one.  Without a fault it needs the partition, and then it returns the entries with the prefix and
changes nothing. -/
theorem scan_exact (s : Store τ) (place : Place) (start : Bytes) :
    (∀ code, s.scanFaults.get? place = some code →
      ∃ faults, s.scan place start = ({ s with scanFaults := faults }, .error code) ∧
        ∀ other, faults.get? other = if other = place then none else s.scanFaults.get? other) ∧
    (∀ code, s.scanFaults.get? place = none → s.contents place = .error code →
      s.scan place start = (s, .error code)) ∧
    (∀ c, s.scanFaults.get? place = none → s.contents place = .ok c →
      ∃ found, s.scan place start = (s, .ok found) ∧ Found c start found ∧
        ∀ found', Found c start found' → found' = found) := by
  refine ⟨fun code hfault => ?_, fun code hfault hpart => ?_, fun c hfault hpart => ?_⟩
  · refine ⟨s.scanFaults.erase place, ?_, fun other => OrderedMap.get?_erase ..⟩
    rw [scan, hfault]
  · rw [scan, hfault, hpart]
    rfl
  · refine ⟨entriesFrom c start, ?_, found_entriesFrom c start, fun found' h =>
      eq_of_found h (found_entriesFrom c start)⟩
    rw [scan, hfault, hpart]
    rfl

/-- Keys at both ends of the byte order. -/
def sampleKeys : Contents :=
  ⟨[([], [1]), ([0], [2]), ([0xff], [3]), ([0xff, 0xff], [4]), ([0xff, 0xff, 0], [5])], by decide⟩

/-- A store with these keys in one partition and with faults at another one. -/
def sampleScanned : Store Unit :=
  { empty with
    parts := OrderedMap.empty.insert ⟨1, 3⟩ sampleKeys
    scanFaults := OrderedMap.empty.insert ⟨1, 4⟩ .leaderChanged }

theorem scan_exact_sample :
    (∃ found, sampleScanned.scan ⟨1, 3⟩ [] = (sampleScanned, .ok found) ∧
      found.map Prod.snd = [[1], [2], [3], [4], [5]] ∧ Found sampleKeys [] found) ∧
    (∃ found, sampleScanned.scan ⟨1, 3⟩ [0xff, 0xff] = (sampleScanned, .ok found) ∧
      found.map Prod.snd = [[4], [5]] ∧ Found sampleKeys [0xff, 0xff] found) ∧
    ∃ faults, sampleScanned.scan ⟨1, 4⟩ []
        = ({ sampleScanned with scanFaults := faults }, .error .leaderChanged) ∧
      ∀ other, faults.get? other = none := by
  have hpart : sampleScanned.contents ⟨1, 3⟩ = .ok sampleKeys := rfl
  have hclear : sampleScanned.scanFaults.get? ⟨1, 3⟩ = none := rfl
  have hfault : sampleScanned.scanFaults.get? ⟨1, 4⟩ = some .leaderChanged := rfl
  obtain ⟨all, hall, hallFound, -⟩ :=
    (scan_exact sampleScanned ⟨1, 3⟩ []).2.2 sampleKeys hclear hpart
  obtain ⟨last, hlast, hlastFound, -⟩ :=
    (scan_exact sampleScanned ⟨1, 3⟩ [0xff, 0xff]).2.2 sampleKeys hclear hpart
  obtain ⟨faults, hscan, hfaults⟩ :=
    (scan_exact sampleScanned ⟨1, 4⟩ []).1 .leaderChanged hfault
  refine ⟨⟨all, hall, ?_, hallFound⟩, ⟨last, hlast, ?_, hlastFound⟩, faults, hscan,
    fun other => ?_⟩
  · obtain rfl := eq_of_found (found_entriesFrom sampleKeys []) hallFound
    decide
  · obtain rfl := eq_of_found (found_entriesFrom sampleKeys [0xff, 0xff]) hlastFound
    decide
  · rw [hfaults, sampleScanned, OrderedMap.get?_insert]
    split <;> rfl

end Store

end EdgeDeletion
