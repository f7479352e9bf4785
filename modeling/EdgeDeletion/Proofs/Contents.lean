/-
The view of a partition after scans and writes.

A scan walks from the given start up to the first key that does not have it as a
prefix.  Keys with a common prefix stand together in byte order, so the walk
misses nothing:

* `entriesFrom_eq_filter` — a scan finds exactly the entries whose key starts
  with the given bytes;
* `entriesFrom_congr` — contents with the same view below a prefix give the same
  scan.

The effect of a write is given by two operations on contents: `without` takes keys
away, and `withLog` adds entries to the operation log.
-/
import EdgeDeletion.OperationLog
import EdgeDeletion.Store

namespace EdgeDeletion

universe u

open KeyOrder (before)

/-! ### Prefixes in byte order -/

namespace KeyOrder

variable {α : Type u} [KeyOrder α]

/-- A string does not come before one of its prefixes. -/
theorem listBefore_of_prefix : ∀ {start k : List α}, start <+: k → listBefore k start = false
  | [], k, _ => by cases k <;> rfl
  | a :: start, k, h => by
    obtain ⟨rest, rfl⟩ := h
    simp [listBefore, irrefl, listBefore_of_prefix (List.prefix_append start rest)]

/-- What stands between a prefix and a string with that prefix has the prefix too. -/
theorem prefix_of_listBefore : ∀ {start a b : List α},
    listBefore a start = false → listBefore a b = true → start <+: b → start <+: a
  | [], _, _, _, _, _ => List.nil_prefix
  | _ :: _, [], _, h, _, _ => by simp [listBefore] at h
  | x :: start, y :: a, b, hs, hb, hp => by
    obtain ⟨rest, rfl⟩ := hp
    simp only [List.cons_append, listBefore, Bool.or_eq_false_iff, Bool.and_eq_false_iff,
      Bool.not_eq_false', Bool.or_eq_true, Bool.and_eq_true, Bool.not_eq_true'] at hs hb
    obtain ⟨hyx, hrest⟩ := hs
    -- the first bytes agree: neither comes before the other
    have hxy : before x y = false := by
      rcases hb with hb | ⟨hb, -⟩
      · simp [hb] at hyx
      · exact hb
    have hfirst : x = y := connected hxy hyx
    subst hfirst
    simp only [irrefl, Bool.false_eq_true, false_or, true_and] at hrest hb
    have hp : start <+: a := prefix_of_listBefore hrest hb (List.prefix_append start rest)
    exact (List.cons_prefix_cons).2 ⟨rfl, hp⟩

theorem listBefore_append_left (front a b : List α) :
    listBefore (front ++ a) (front ++ b) = listBefore a b := by
  induction front with
  | nil => rfl
  | cons x front ih => simp [listBefore, irrefl, ih]

end KeyOrder

theorem Bytes.startsWith_iff {bs start : Bytes} :
    Bytes.startsWith bs start = true ↔ start <+: bs := List.isPrefixOf_iff_prefix

/-! ### Scans -/

namespace Store

/-- On a list along which a test is only ever lost, the leading part that passes is all that
passes. -/
theorem takeWhile_eq_filter {α : Type u} {p : α → Bool} : ∀ {l : List α},
    (l.Pairwise fun a b => p b = true → p a = true) → l.takeWhile p = l.filter p
  | [], _ => rfl
  | a :: l, h => by
    obtain ⟨hhd, htl⟩ := List.pairwise_cons.1 h
    by_cases ha : p a = true
    · rw [List.takeWhile_cons_of_pos ha, List.filter_cons_of_pos ha, takeWhile_eq_filter htl]
    · rw [List.takeWhile_cons_of_neg ha, List.filter_cons_of_neg ha, eq_comm,
        List.filter_eq_nil_iff]
      exact fun b hb hpb => ha (hhd b hb hpb)

theorem dropWhile_eq_filter {α : Type u} {p : α → Bool} : ∀ {l : List α},
    (l.Pairwise fun a b => p b = true → p a = true) → l.dropWhile p = l.filter fun a => !p a
  | [], _ => rfl
  | a :: l, h => by
    obtain ⟨hhd, htl⟩ := List.pairwise_cons.1 h
    by_cases ha : p a = true
    · rw [List.dropWhile_cons_of_pos ha, List.filter_cons_of_neg (by simp [ha]),
        dropWhile_eq_filter htl]
    · have hall : ∀ b ∈ a :: l, (!p b) = true := by
        intro b hb
        rcases List.mem_cons.1 hb with rfl | hb
        · simpa using ha
        · simpa using fun hpb => ha (hhd b hb hpb)
      rw [List.dropWhile_cons_of_neg ha, List.filter_eq_self.2 hall]

/-- A scan finds exactly the entries whose key starts with the given bytes. -/
theorem entriesFrom_eq_filter (c : Contents) (start : Bytes) :
    entriesFrom c start = c.entries.filter fun e => Bytes.startsWith e.1 start := by
  have hdrop : c.entries.dropWhile (fun e => before e.1 start)
      = c.entries.filter fun e => !before e.1 start :=
    dropWhile_eq_filter (c.ordered.imp fun hab hb => KeyOrder.trans hab hb)
  have hord : (c.entries.filter fun e => !before e.1 start).Pairwise fun a b =>
      Bytes.startsWith b.1 start = true → Bytes.startsWith a.1 start = true := by
    refine List.pairwise_filter.2 (c.ordered.imp fun {a b} hab ha _ hb => ?_)
    rw [Bytes.startsWith_iff] at hb ⊢
    have hs : before a.1 start = false := by simpa using ha
    exact KeyOrder.prefix_of_listBefore hs hab hb
  rw [entriesFrom, hdrop, takeWhile_eq_filter hord, List.filter_filter]
  refine List.filter_congr fun e _ => ?_
  by_cases he : Bytes.startsWith e.1 start = true
  · have : before e.1 start = false :=
      KeyOrder.listBefore_of_prefix (Bytes.startsWith_iff.1 he)
    simp [he, this]
  · simp [he]

theorem mem_entriesFrom {c : Contents} {start k v : Bytes} :
    (k, v) ∈ entriesFrom c start ↔ c.get? k = some v ∧ start <+: k := by
  rw [entriesFrom_eq_filter, List.mem_filter, OrderedMap.get?_eq_some_iff, Bytes.startsWith_iff]

theorem entriesFrom_ordered (c : Contents) (start : Bytes) :
    (entriesFrom c start).Pairwise fun a b => before a.1 b.1 = true := by
  rw [entriesFrom_eq_filter]
  exact c.ordered.filter _

/-- A scan sees no more than the view below the prefix. -/
theorem entriesFrom_congr {c d : Contents} {start : Bytes}
    (h : ∀ k, start <+: k → c.get? k = d.get? k) : entriesFrom c start = entriesFrom d start := by
  refine OrderedMap.eq_of_mem_iff (entriesFrom_ordered c start) (entriesFrom_ordered d start) ?_
  rintro ⟨k, v⟩
  rw [mem_entriesFrom, mem_entriesFrom]
  exact and_congr_left fun hk => by rw [h k hk]

end Store

/-! ### Writes -/

namespace Contents

@[simp] theorem apply_nil (c : Contents) : c.apply [] = c := rfl

@[simp] theorem apply_put (c : Contents) (key value : Bytes) (ops : List BatchOp) :
    c.apply (.put key value :: ops) = apply (c.insert key value) ops := rfl

@[simp] theorem apply_remove (c : Contents) (key : Bytes) (ops : List BatchOp) :
    c.apply (.remove key :: ops) = apply (c.erase key) ops := rfl

/-- Contents without some keys. -/
def without (c : Contents) (keys : List Bytes) : Contents := c.filter fun k => !keys.contains k

/-- Contents with entries added to the operation log of a partition, in order. -/
def withLog (c : Contents) (part : PartId) (lines : List (UInt64 × Bytes)) : Contents :=
  lines.foldl (fun c line => c.insert (Key.deferral part line.1) line.2) c

theorem get?_without (c : Contents) (keys : List Bytes) (k : Bytes) :
    (c.without keys).get? k = if k ∈ keys then none else c.get? k := by
  rw [without, OrderedMap.get?_filter]
  by_cases h : k ∈ keys <;> simp [h]

@[simp] theorem without_nil (c : Contents) : c.without [] = c :=
  OrderedMap.ext fun k => by simp [get?_without]

theorem without_append (c : Contents) (keys keys' : List Bytes) :
    c.without (keys ++ keys') = (c.without keys).without keys' := by
  refine OrderedMap.ext fun k => ?_
  simp only [get?_without, List.mem_append]
  by_cases h : k ∈ keys <;> by_cases h' : k ∈ keys' <;> simp [h, h']

theorem erase_eq_without (c : Contents) (k : Bytes) : c.erase k = c.without [k] := by
  refine OrderedMap.ext fun k' => ?_
  rw [OrderedMap.get?_erase, get?_without]
  simp

/-- Removing keys one by one is removing them all. -/
theorem apply_map_remove (c : Contents) (keys : List Bytes) :
    c.apply (keys.map .remove) = c.without keys := by
  induction keys generalizing c with
  | nil => simp
  | cons k keys ih =>
    rw [List.map_cons, apply_remove, ih, erase_eq_without, ← without_append]
    rfl

@[simp] theorem withLog_nil (c : Contents) (part : PartId) : c.withLog part [] = c := rfl

@[simp] theorem withLog_cons (c : Contents) (part : PartId) (line : UInt64 × Bytes)
    (lines : List (UInt64 × Bytes)) :
    c.withLog part (line :: lines)
      = withLog (c.insert (Key.deferral part line.1) line.2) part lines := rfl

theorem withLog_append (c : Contents) (part : PartId) (lines lines' : List (UInt64 × Bytes)) :
    c.withLog part (lines ++ lines') = (c.withLog part lines).withLog part lines' := by
  rw [withLog, List.foldl_append]
  rfl

/-- The log entries touch no other key. -/
theorem get?_withLog_of_ne {c : Contents} {part : PartId} {lines : List (UInt64 × Bytes)}
    {k : Bytes} (h : ∀ line ∈ lines, k ≠ Key.deferral part line.1) :
    (c.withLog part lines).get? k = c.get? k := by
  induction lines generalizing c with
  | nil => rfl
  | cons line lines ih =>
    rw [withLog_cons, ih fun l hl => h l (by simp [hl]), OrderedMap.get?_insert,
      if_neg (h line (by simp))]

/-- Away from the new entries of the log only the removals show. -/
theorem get?_without_withLog {c : Contents} {part : PartId} {removed keys : List Bytes}
    {numbers : List UInt64} {k : Bytes} (h : ∀ x ∈ numbers, k ≠ Key.deferral part x) :
    ((c.without removed).withLog part (numbers.zip keys)).get? k
      = if k ∈ removed then none else c.get? k := by
  rw [get?_withLog_of_ne fun line hline => h _ (List.of_mem_zip hline).1, get?_without]

theorem insert_without {c : Contents} {keys : List Bytes} {k : Bytes} (h : k ∉ keys) (v : Bytes) :
    without (c.insert k v) keys = (c.without keys).insert k v := by
  refine OrderedMap.ext fun k' => ?_
  rw [get?_without, OrderedMap.get?_insert, OrderedMap.get?_insert, get?_without]
  by_cases hk : k' = k
  · subst hk
    simp [h]
  · simp [hk]

/-- Taking other keys away and adding to the log can be done in either order. -/
theorem withLog_without {c : Contents} {part : PartId} {lines : List (UInt64 × Bytes)}
    {keys : List Bytes} (h : ∀ line ∈ lines, Key.deferral part line.1 ∉ keys) :
    (c.withLog part lines).without keys = (c.without keys).withLog part lines := by
  induction lines generalizing c with
  | nil => rfl
  | cons line lines ih =>
    rw [withLog_cons, withLog_cons, ih fun l hl => h l (by simp [hl]),
      insert_without (h line (by simp))]

end Contents

/-! ### The store after one write -/

namespace Store

variable {τ : Type u} (s : Store τ) (w : Write τ)

/-- A write changes its own partition and what its faults are, and nothing else. -/
theorem apply_fst : ∃ faults parts,
    (s.apply w).1 = { s with writeFaults := faults, parts := parts } ∧
    ∀ place, place ≠ w.place → parts.get? place = s.parts.get? place := by
  unfold apply
  split
  · exact ⟨_, _, rfl, fun _ _ => rfl⟩
  · split
    · exact ⟨_, _, rfl, fun _ _ => rfl⟩
    · split
      · exact ⟨_, _, rfl, fun _ _ => rfl⟩
      · exact ⟨_, _, rfl, fun place hne => by rw [OrderedMap.get?_insert, if_neg hne]⟩

theorem apply_token : (s.apply w).2.token = w.token := by
  unfold apply
  split
  · rfl
  · split
    · rfl
    · split <;> rfl

theorem apply_held : (s.apply w).1.held = s.held := by
  obtain ⟨faults, parts, h, -⟩ := s.apply_fst w
  rw [h]

theorem apply_submissions : (s.apply w).1.submissions = s.submissions := by
  obtain ⟨faults, parts, h, -⟩ := s.apply_fst w
  rw [h]

theorem get?_parts_apply_of_ne {place : Place} (hne : place ≠ w.place) :
    (s.apply w).1.parts.get? place = s.parts.get? place := by
  obtain ⟨faults, parts, h, hparts⟩ := s.apply_fst w
  rw [h]
  exact hparts place hne

variable {s w}

theorem contents_eq_ok_iff {place : Place} {c : Contents} :
    s.contents place = .ok c ↔ s.parts.get? place = some c := by
  rw [contents]
  split <;> simp_all

/-- What a write that succeeds has done. -/
theorem apply_of_ok (h : (s.apply w).2.result = .ok ()) :
    ∃ c ops, s.parts.get? w.place = some c ∧ opsOf w.change = .ok ops ∧
      (s.apply w).1.parts = s.parts.insert w.place (c.apply ops) := by
  unfold apply at h ⊢
  cases hfault : s.writeFaults.get? w.place with
  | some code => simp [hfault] at h
  | none =>
    cases hc : s.contents w.place with
    | error code => simp [hfault, hc] at h
    | ok c =>
      cases hops : opsOf w.change with
      | error e => simp [hfault, hc, hops] at h
      | ok ops => exact ⟨c, ops, contents_eq_ok_iff.1 hc, rfl, rfl⟩

/-- The store when one more write was submitted to it, as far as counting goes. -/
def counted (s : Store τ) : Store τ := { s with submissions := s.submissions + 1 }

/-- A store that holds no writes back applies a write at once. -/
theorem submit_of_not_held (h : s.held = none) :
    s.submit w = ((s.counted.apply w).1, [(s.counted.apply w).2]) := by
  cases s
  subst h
  rfl

/-- A paused store holds a write back behind the others. -/
theorem submit_of_held {queue : List (Write τ)} (h : s.held = some queue) :
    s.submit w = ({ s.counted with held := some (queue ++ [w]) }, []) := by
  cases s
  subst h
  rfl

theorem held_submit : (s.submit w).1.held = s.held.map (· ++ [w]) := by
  cases h : s.held with
  | none =>
    rw [submit_of_not_held h]
    exact (s.counted.apply_held w).trans h
  | some queue =>
    rw [submit_of_held h]
    rfl

/-! ### Writes that were held back -/

theorem applyAll_held (s : Store τ) (ws : List (Write τ)) : (s.applyAll ws).1.held = s.held := by
  induction ws generalizing s with
  | nil => rfl
  | cons w ws ih => exact (ih (s.apply w).1).trans (s.apply_held w)

/-- There is a completion for every write, in order. -/
theorem applyAll_tokens (s : Store τ) (ws : List (Write τ)) :
    (s.applyAll ws).2.map (·.token) = ws.map (·.token) := by
  induction ws generalizing s with
  | nil => rfl
  | cons w ws ih =>
    rw [applyAll, List.map_cons, List.map_cons, ih, apply_token]

theorem applyAll_append (s : Store τ) (ws : List (Write τ)) (w : Write τ) :
    s.applyAll (ws ++ [w]) = (((s.applyAll ws).1.apply w).1,
      (s.applyAll ws).2 ++ [((s.applyAll ws).1.apply w).2]) := by
  induction ws generalizing s with
  | nil => rfl
  | cons w' ws ih =>
    show (((s.apply w').1.applyAll (ws ++ [w])).1,
      (s.apply w').2 :: ((s.apply w').1.applyAll (ws ++ [w])).2) = _
    rw [ih]
    rfl

end Store

end EdgeDeletion
