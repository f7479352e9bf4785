/-
Finite maps kept in key order.

An `OrderedMap κ ν` is a list of entries with strictly ascending keys, so a map
has exactly one form and two maps with the same entries are equal.  The view of
a map is `get?`:

* `get?_insert`, `get?_erase`, `get?_filter` — what each operation does to the view;
* `ext` — maps with the same view are equal;
* `keys_eq_of_mem_iff` — the keys are a list that only depends on which keys there are.

An `OrderedSet` is a map to the unit type.
-/
import EdgeDeletion.KeyOrder

namespace EdgeDeletion

open KeyOrder (before)

universe u v

/-- A finite map, its entries in strictly ascending key order. -/
structure OrderedMap (κ : Type u) (ν : Type v) [KeyOrder κ] where
  entries : List (κ × ν)
  ordered : entries.Pairwise fun a b => before a.1 b.1 = true

namespace OrderedMap

variable {κ : Type u} {ν : Type v} [KeyOrder κ]

/-- Looks a key up in ascending entries. -/
def lookup (k : κ) : List (κ × ν) → Option ν
  | [] => none
  | e :: es =>
    if before k e.1 then none
    else if before e.1 k then lookup k es
    else some e.2

/-- Puts an entry at its place among ascending entries, over an entry with its key. -/
def insertEntry (k : κ) (v : ν) : List (κ × ν) → List (κ × ν)
  | [] => [(k, v)]
  | e :: es =>
    if before k e.1 then (k, v) :: e :: es
    else if before e.1 k then e :: insertEntry k v es
    else (k, v) :: es

theorem mem_insertEntry {k : κ} {v : ν} {x : κ × ν} : ∀ {es : List (κ × ν)},
    x ∈ insertEntry k v es → x = (k, v) ∨ x ∈ es
  | [], h => by simpa [insertEntry] using h
  | e :: es, h => by
    unfold insertEntry at h
    split at h
    · simpa using h
    · split at h
      · rcases List.mem_cons.1 h with h | h
        · simp [h]
        · rcases mem_insertEntry h with h | h <;> simp [h]
      · rcases List.mem_cons.1 h with h | h <;> simp [h]

theorem insertEntry_ordered {k : κ} {v : ν} : ∀ {es : List (κ × ν)},
    (es.Pairwise fun a b => before a.1 b.1 = true) →
      (insertEntry k v es).Pairwise fun a b => before a.1 b.1 = true
  | [], _ => by simp [insertEntry]
  | e :: es, h => by
    have hhd := (List.pairwise_cons.1 h).1
    have htl := (List.pairwise_cons.1 h).2
    unfold insertEntry
    split
    · rename_i hk
      refine List.pairwise_cons.2 ⟨fun x hx => ?_, h⟩
      rcases List.mem_cons.1 hx with rfl | hx
      · exact hk
      · exact KeyOrder.trans hk (hhd x hx)
    · rename_i hk
      split
      · rename_i he
        refine List.pairwise_cons.2 ⟨fun x hx => ?_, insertEntry_ordered htl⟩
        rcases mem_insertEntry hx with rfl | hx
        · exact he
        · exact hhd x hx
      · rename_i he
        have hke : e.1 = k := KeyOrder.eq_of_same he hk
        exact List.pairwise_cons.2 ⟨fun x hx => hke ▸ hhd x hx, htl⟩

def empty : OrderedMap κ ν := ⟨[], .nil⟩

instance : Inhabited (OrderedMap κ ν) := ⟨empty⟩

/-- The value stored under a key. -/
def get? (m : OrderedMap κ ν) (k : κ) : Option ν := lookup k m.entries

def contains (m : OrderedMap κ ν) (k : κ) : Bool := (m.get? k).isSome

/-- Stores a value under a key, over an earlier one. -/
def insert (m : OrderedMap κ ν) (k : κ) (v : ν) : OrderedMap κ ν :=
  ⟨insertEntry k v m.entries, insertEntry_ordered m.ordered⟩

/-- Keeps the entries whose key passes a test. -/
def filter (m : OrderedMap κ ν) (p : κ → Bool) : OrderedMap κ ν :=
  ⟨m.entries.filter fun e => p e.1, m.ordered.filter _⟩

/-- Drops the entry of a key, if there is one. -/
def erase (m : OrderedMap κ ν) (k : κ) : OrderedMap κ ν :=
  m.filter fun k' => before k k' || before k' k

def keys (m : OrderedMap κ ν) : List κ := m.entries.map Prod.fst

def size (m : OrderedMap κ ν) : Nat := m.entries.length

def isEmpty (m : OrderedMap κ ν) : Bool := m.entries.isEmpty

/-! ### The view `get?` -/

theorem lookup_eq_some_iff {k : κ} {v : ν} : ∀ {es : List (κ × ν)},
    (es.Pairwise fun a b => before a.1 b.1 = true) → (lookup k es = some v ↔ (k, v) ∈ es)
  | [], _ => by simp [lookup]
  | e :: es, h => by
    have hhd := (List.pairwise_cons.1 h).1
    have htl := (List.pairwise_cons.1 h).2
    unfold lookup
    split
    · rename_i hk
      refine ⟨by simp, fun hm => ?_⟩
      rcases List.mem_cons.1 hm with hm | hm
      · exact absurd (hm ▸ hk) (by simp [KeyOrder.irrefl])
      · exact absurd (KeyOrder.trans hk (hhd _ hm)) (by simp [KeyOrder.irrefl])
    · rename_i hk
      split
      · rename_i he
        rw [lookup_eq_some_iff htl, List.mem_cons]
        refine ⟨.inr, fun hm => hm.resolve_left fun hm => ?_⟩
        exact absurd (hm ▸ he) (by simp [KeyOrder.irrefl])
      · rename_i he
        obtain ⟨k', v'⟩ := e
        have hke : k' = k := KeyOrder.eq_of_same he hk
        subst hke
        rw [List.mem_cons]
        constructor
        · intro hv
          exact .inl (by simpa using hv.symm)
        · rintro (hm | hm)
          · simpa using hm.symm
          · exact absurd (hhd _ hm) (by simp [KeyOrder.irrefl])

theorem get?_eq_some_iff {m : OrderedMap κ ν} {k : κ} {v : ν} :
    m.get? k = some v ↔ (k, v) ∈ m.entries :=
  lookup_eq_some_iff m.ordered

theorem mem_keys_iff {m : OrderedMap κ ν} {k : κ} : k ∈ m.keys ↔ (m.get? k).isSome = true := by
  rw [keys, List.mem_map, Option.isSome_iff_exists]
  constructor
  · rintro ⟨⟨_, v⟩, hmem, rfl⟩
    exact ⟨v, get?_eq_some_iff.2 hmem⟩
  · rintro ⟨v, hv⟩
    exact ⟨(k, v), get?_eq_some_iff.1 hv, rfl⟩

@[simp] theorem get?_empty (k : κ) : (empty : OrderedMap κ ν).get? k = none := rfl

theorem lookup_insertEntry_self (k : κ) (v : ν) : ∀ es : List (κ × ν),
    lookup k (insertEntry k v es) = some v
  | [] => by simp [insertEntry, lookup, KeyOrder.irrefl]
  | e :: es => by
    unfold insertEntry
    split
    · simp [lookup, KeyOrder.irrefl]
    · split
      · rename_i hk he
        simp [lookup, hk, he, lookup_insertEntry_self k v es]
      · simp [lookup, KeyOrder.irrefl]

theorem lookup_insertEntry_of_ne {k k' : κ} (v : ν) (hne : k' ≠ k) : ∀ es : List (κ × ν),
    (es.Pairwise fun a b => before a.1 b.1 = true) →
      lookup k' (insertEntry k v es) = lookup k' es
  | [], _ => by
    by_cases h : before k' k = true
    · simp [insertEntry, lookup, h]
    · by_cases h' : before k k' = true
      · simp [insertEntry, lookup, h, h']
      · exact absurd (KeyOrder.eq_of_same h h') hne
  | e :: es, hp => by
    have hhd := (List.pairwise_cons.1 hp).1
    have htl := (List.pairwise_cons.1 hp).2
    unfold insertEntry
    split
    · rename_i hk
      by_cases h : before k' k = true
      · have hke : before k' e.1 = true := KeyOrder.trans h hk
        simp [lookup, h, hke]
      · by_cases h' : before k k' = true
        · simp [lookup, h, h']
        · exact absurd (KeyOrder.eq_of_same h h') hne
    · rename_i hk
      split
      · simp only [lookup, lookup_insertEntry_of_ne v hne es htl]
      · rename_i he
        have hke : e.1 = k := KeyOrder.eq_of_same he hk
        by_cases h : before k' k = true
        · simp [lookup, h, hke]
        · by_cases h' : before k k' = true
          · simp [lookup, h, h', hke]
          · exact absurd (KeyOrder.eq_of_same h h') hne

/-- Storing a value changes the view at its key only. -/
theorem get?_insert [DecidableEq κ] (m : OrderedMap κ ν) (k k' : κ) (v : ν) :
    (m.insert k v).get? k' = if k' = k then some v else m.get? k' := by
  split
  · rename_i h
    rw [h]
    exact lookup_insertEntry_self k v m.entries
  · rename_i h
    exact lookup_insertEntry_of_ne v h m.entries m.ordered

theorem length_insertEntry {k : κ} {v : ν} : ∀ {es : List (κ × ν)}, lookup k es = none →
    (insertEntry k v es).length = es.length + 1
  | [], _ => rfl
  | e :: es, h => by
    rw [lookup] at h
    rw [insertEntry]
    by_cases hbefore : before k e.1 = true
    · rw [if_pos hbefore, List.length_cons]
    · rw [if_neg hbefore] at h ⊢
      by_cases hafter : before e.1 k = true
      · rw [if_pos hafter] at h ⊢
        rw [List.length_cons, length_insertEntry h, List.length_cons]
      · simp [hafter] at h

/-- A key that is new adds to the size. -/
theorem size_insert {m : OrderedMap κ ν} {k : κ} (h : m.get? k = none) (v : ν) :
    (m.insert k v).size = m.size + 1 := length_insertEntry h

/-- Filtering keeps the view where the test holds and empties it elsewhere. -/
theorem get?_filter (m : OrderedMap κ ν) (p : κ → Bool) (k : κ) :
    (m.filter p).get? k = if p k then m.get? k else none := by
  apply Option.ext
  intro v
  rw [get?_eq_some_iff]
  split <;> rename_i h
  · simp [filter, get?_eq_some_iff, h]
  · simp [filter, h]

/-- Erasing empties the view at the key only. -/
theorem get?_erase [DecidableEq κ] (m : OrderedMap κ ν) (k k' : κ) :
    (m.erase k).get? k' = if k' = k then none else m.get? k' := by
  rw [erase, get?_filter]
  by_cases h : k' = k
  · simp [h, KeyOrder.irrefl]
  · have : before k k' = true ∨ before k' k = true := by
      by_cases h₁ : before k k' = true
      · exact .inl h₁
      · by_cases h₂ : before k' k = true
        · exact .inr h₂
        · exact absurd (KeyOrder.eq_of_same h₂ h₁) h
    simp [h, this]

theorem eq_of_mem_iff : ∀ {es fs : List (κ × ν)},
    (es.Pairwise fun a b => before a.1 b.1 = true) →
    (fs.Pairwise fun a b => before a.1 b.1 = true) →
    (∀ e, e ∈ es ↔ e ∈ fs) → es = fs
  | [], [], _, _, _ => rfl
  | [], f :: _, _, _, h => by simpa using (h f).2 (by simp)
  | e :: _, [], _, _, h => by simpa using (h e).1 (by simp)
  | e :: es, f :: fs, he, hf, h => by
    obtain ⟨hehd, hetl⟩ := List.pairwise_cons.1 he
    obtain ⟨hfhd, hftl⟩ := List.pairwise_cons.1 hf
    have hef : e = f := by
      rcases List.mem_cons.1 ((h e).1 (by simp)) with h₁ | h₁
      · exact h₁
      · rcases List.mem_cons.1 ((h f).2 (by simp)) with h₂ | h₂
        · exact h₂.symm
        · exact absurd (KeyOrder.trans (hfhd e h₁) (hehd f h₂)) (by simp [KeyOrder.irrefl])
    subst hef
    refine congrArg _ (eq_of_mem_iff hetl hftl fun x => ?_)
    constructor
    · intro hx
      refine (List.mem_cons.1 ((h x).1 (by simp [hx]))).resolve_left ?_
      rintro rfl
      exact absurd (hehd x hx) (by simp [KeyOrder.irrefl])
    · intro hx
      refine (List.mem_cons.1 ((h x).2 (by simp [hx]))).resolve_left ?_
      rintro rfl
      exact absurd (hfhd x hx) (by simp [KeyOrder.irrefl])

/-- Maps with the same view are equal. -/
theorem ext {m n : OrderedMap κ ν} (h : ∀ k, m.get? k = n.get? k) : m = n := by
  cases m with | mk es he
  cases n with | mk fs hf
  congr 1
  refine eq_of_mem_iff he hf fun e => ?_
  rw [← lookup_eq_some_iff he, ← lookup_eq_some_iff hf]
  exact iff_of_eq (congrArg (· = some e.2) (h e.1))

/-- Storing what is stored already changes nothing. -/
theorem insert_eq_self [DecidableEq κ] {m : OrderedMap κ ν} {k : κ} {v : ν}
    (h : m.get? k = some v) : m.insert k v = m := by
  refine OrderedMap.ext fun k' => ?_
  rw [get?_insert]
  by_cases hk : k' = k
  · rw [if_pos hk, hk, h]
  · rw [if_neg hk]

/-! ### The keys -/

theorem keys_ordered (m : OrderedMap κ ν) : m.keys.Pairwise fun a b => before a b = true :=
  List.pairwise_map.2 m.ordered

theorem mem_keys_insert [DecidableEq κ] {m : OrderedMap κ ν} {k k' : κ} {v : ν} :
    k' ∈ (m.insert k v).keys ↔ k' = k ∨ k' ∈ m.keys := by
  rw [mem_keys_iff, mem_keys_iff, get?_insert]
  by_cases h : k' = k <;> simp [h]

theorem mem_keys_erase [DecidableEq κ] {m : OrderedMap κ ν} {k k' : κ} :
    k' ∈ (m.erase k).keys ↔ k' ≠ k ∧ k' ∈ m.keys := by
  rw [mem_keys_iff, mem_keys_iff, get?_erase]
  by_cases h : k' = k <;> simp [h]

/-- Maps have their keys in order, so those with the same keys have the same list of keys. -/
theorem keys_eq_of_mem_iff {ν' : Type v} {m : OrderedMap κ ν} {n : OrderedMap κ ν'}
    (h : ∀ k, k ∈ m.keys ↔ k ∈ n.keys) : m.keys = n.keys := by
  have hm : (m.keys.map fun k => (k, ())).Pairwise fun a b => before a.1 b.1 = true :=
    List.pairwise_map.2 m.keys_ordered
  have hn : (n.keys.map fun k => (k, ())).Pairwise fun a b => before a.1 b.1 = true :=
    List.pairwise_map.2 n.keys_ordered
  have hsame : (m.keys.map fun k => (k, ())) = n.keys.map fun k => (k, ()) :=
    eq_of_mem_iff hm hn fun e => by simp only [List.mem_map, h]
  have hkeys := congrArg (List.map Prod.fst) hsame
  simpa only [List.map_map, Function.comp_def, List.map_id'] using hkeys

end OrderedMap

/-- A finite set in key order. -/
abbrev OrderedSet (κ : Type u) [KeyOrder κ] := OrderedMap κ Unit

namespace OrderedSet

variable {κ : Type u} [KeyOrder κ]

/-- The set of the members of a list. -/
def ofList (ks : List κ) : OrderedSet κ :=
  ks.foldl (fun s k => s.insert k ()) OrderedMap.empty

end OrderedSet

end EdgeDeletion
