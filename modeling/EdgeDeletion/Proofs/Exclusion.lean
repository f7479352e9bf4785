/-
A lock table excludes, whatever its users do.

Users claim keys and give their claims up again, in any order.  A claim that was granted is kept
by a guard until it is given up.  At every moment of such a run the keys held are those of
the live guards, and no two guards have a key in common.

* `decides` — how a table answers a claim, and that neither the order of the request nor
  repetitions in it matter;
* `Guarded.act` — one action keeps claims and guards together;
* `claims_exclude` — the whole of it, for every run.
-/
import EdgeDeletion.Proofs.Claims
import Mathlib.Algebra.GroupWithZero.Nat
import Mathlib.Data.List.Nodup

namespace EdgeDeletion

open KeyOrder (before)

universe u

variable {κ : Type u} [KeyOrder κ]

/-- Keys in strictly ascending order are different. -/
theorem KeyOrder.nodup_of_ordered {ks : List κ} (h : ks.Pairwise fun a b => before a b = true) :
    ks.Nodup := h.imp KeyOrder.ne_of_before

/-- In ascending order the first key that passes a test is the least one. -/
theorem KeyOrder.find?_eq_some_iff_least {ks : List κ}
    (h : ks.Pairwise fun a b => before a b = true) (p : κ → Bool) (k : κ) :
    ks.find? p = some k ↔
      k ∈ ks ∧ p k = true ∧ ∀ k' ∈ ks, p k' = true → k' = k ∨ before k k' = true := by
  rw [List.find?_eq_some_iff_append]
  constructor
  · rintro ⟨hk, front, back, rfl, hfront⟩
    have hback := (List.pairwise_cons.1 (List.pairwise_append.1 h).2.1).1
    refine ⟨by simp, hk, fun k' hk' hpass => ?_⟩
    rcases List.mem_append.1 hk' with hk' | hk'
    · exact absurd hpass (by simpa using hfront k' hk')
    · exact (List.mem_cons.1 hk').imp id (hback k')
  · rintro ⟨hmem, hk, hleast⟩
    obtain ⟨front, back, rfl⟩ := List.append_of_mem hmem
    refine ⟨hk, front, back, rfl, fun a ha => ?_⟩
    have hbefore : before a k = true := (List.pairwise_append.1 h).2.2 a ha k (by simp)
    cases hpass : p a with
    | false => rfl
    | true =>
      rcases hleast a (by simp [ha]) hpass with rfl | hafter
      · exact absurd rfl (KeyOrder.ne_of_before hbefore)
      · exact absurd hafter (by simp [KeyOrder.asymm hbefore])

namespace LockTable

variable {t : LockTable κ} {ks ks' claimed : List κ}

/-! ### Answers to claims -/

theorem distinct_ordered (ks : List κ) : (distinct ks).Pairwise fun a b => before a b = true :=
  OrderedMap.keys_ordered _

/-- Requests for the same keys are one request. -/
theorem distinct_congr (h : ∀ k, k ∈ ks' ↔ k ∈ ks) : distinct ks' = distinct ks := by
  classical
  refine OrderedMap.keys_eq_of_mem_iff fun k => ?_
  show k ∈ distinct ks' ↔ k ∈ distinct ks
  rw [mem_distinct, mem_distinct, h]

/-- How a table answers a claim. -/
structure Decides (t : LockTable κ) (ks : List κ) : Prop where
  /-- It is granted if none of its keys is held. -/
  granted : (∃ r, t.claim ks = .ok r) ↔ ∀ k ∈ ks, t.isLocked k = false
  /-- It is granted for its different keys, ascending, which then are held besides the others. -/
  claimed : ∀ claimed t', t.claim ks = .ok (claimed, t') →
    claimed.Pairwise (fun a b => before a b = true) ∧ (∀ k, k ∈ claimed ↔ k ∈ ks) ∧
      ∀ k, t'.isLocked k = true ↔ k ∈ ks ∨ t.isLocked k = true
  /-- A refusal names the least of its keys that is held. -/
  refused : ∀ k, t.claim ks = .error k ↔
    k ∈ ks ∧ t.isLocked k = true ∧
      ∀ k' ∈ ks, t.isLocked k' = true → k' = k ∨ before k k' = true
  /-- Neither the order of the request nor repetitions in it matter. -/
  setwise : ∀ ks', (∀ k, k ∈ ks' ↔ k ∈ ks) → t.claim ks' = t.claim ks

theorem claim_eq_error_iff (t : LockTable κ) (ks : List κ) (k : κ) :
    t.claim ks = .error k ↔ (distinct ks).find? t.isLocked = some k := by
  rw [claim]
  cases (distinct ks).find? t.isLocked <;> simp

/-- Every table answers claims so. -/
theorem decides (t : LockTable κ) (ks : List κ) : t.Decides ks := by
  classical
  refine ⟨?_, ?_, ?_, ?_⟩
  · rw [claim_eq_ok_iff]
    simp only [mem_distinct]
  · intro claimed t' hclaim
    obtain ⟨rfl, rfl, -⟩ := claim_of_ok hclaim
    refine ⟨distinct_ordered ks, fun k => mem_distinct, fun k => ?_⟩
    rw [isLocked_hold, mem_distinct]
  · intro k
    rw [claim_eq_error_iff, KeyOrder.find?_eq_some_iff_least (distinct_ordered ks)]
    simp only [mem_distinct]
  · intro ks' hsame
    rw [claim, claim, distinct_congr hsame]

end LockTable

/-! ### Runs -/

/-- A lock table with its live guards, each the keys of a claim, in the order of the claims. -/
structure Registry (κ : Type u) [KeyOrder κ] where
  table : LockTable κ
  guards : List (List κ)

namespace Registry

/-- What the users of a lock table do. -/
inductive Action (κ : Type u) where
  | claim (ks : List κ)
  /-- Drops a live guard, by its position. -/
  | drop (i : Nat)

def empty : Registry κ := ⟨.empty, []⟩

/-- Does one thing.  A claim that is refused gives no guard, and a guard that is dropped gives up
its keys. -/
def act (r : Registry κ) : Action κ → Registry κ
  | .claim ks =>
    match r.table.claim ks with
    | .ok (claimed, table) => ⟨table, r.guards ++ [claimed]⟩
    | .error _ => r
  | .drop i =>
    match r.guards[i]? with
    | some claimed => ⟨r.table.release claimed, r.guards.eraseIdx i⟩
    | none => r

/-- Does one thing after the other. -/
def run (actions : List (Action κ)) : Registry κ := actions.foldl act empty

/-- The keys held are those of the guards, which have no key in common, and every guard has its
keys once, ascending. -/
structure Guarded (r : Registry κ) : Prop where
  union : r.table.IsUnion r.guards
  ordered : ∀ guard ∈ r.guards, guard.Pairwise fun a b => before a b = true

variable {r : Registry κ}

theorem guarded_empty : (empty : Registry κ).Guarded := ⟨LockTable.isUnion_empty, nofun⟩

/-- A guard stands between others. -/
theorem guards_split {i : Nat} {guard : List κ} (h : r.guards[i]? = some guard) :
    r.guards = r.guards.take i ++ guard :: r.guards.drop (i + 1) ∧
      r.guards.eraseIdx i = r.guards.take i ++ r.guards.drop (i + 1) := by
  obtain ⟨hlt, hget⟩ := List.getElem?_eq_some_iff.1 h
  refine ⟨?_, List.eraseIdx_eq_take_drop_succ ..⟩
  rw [← hget, ← List.drop_eq_getElem_cons hlt, List.take_append_drop]

theorem Guarded.act (h : r.Guarded) (a : Action κ) : (r.act a).Guarded := by
  classical
  cases a with
  | claim ks =>
    rw [Registry.act]
    cases hclaim : r.table.claim ks with
    | error k => exact h
    | ok p =>
      obtain ⟨claimed, table⟩ := p
      obtain ⟨rfl, rfl, hfree⟩ := LockTable.claim_of_ok hclaim
      -- the new guard comes last, behind all others
      have hunion : r.table.IsUnion (r.guards ++ []) := by
        rw [List.append_nil]
        exact h.union
      refine ⟨hunion.hold hfree, fun guard hguard => ?_⟩
      rcases List.mem_append.1 hguard with hguard | hguard
      · exact h.ordered guard hguard
      · rw [List.mem_singleton.1 hguard]
        exact LockTable.distinct_ordered ks
  | drop i =>
    rw [Registry.act]
    cases hguard : r.guards[i]? with
    | none => exact h
    | some guard =>
      obtain ⟨hsplit, herase⟩ := guards_split hguard
      have hunion := h.union
      rw [hsplit] at hunion
      -- no other guard has a key of this one, so giving its keys up leaves theirs
      refine ⟨?_, fun other hother => h.ordered other (List.mem_of_mem_eraseIdx hother)⟩
      rw [herase]
      exact hunion.release

theorem guarded_run (actions : List (Action κ)) : (run actions).Guarded := by
  -- by induction from any registry, since the first action already leads away from the empty one
  have hall : ∀ r : Registry κ, r.Guarded → (actions.foldl Registry.act r).Guarded := by
    induction actions with
    | nil => exact fun r h => h
    | cons a actions ih => exact fun r h => ih (r.act a) (h.act a)
  exact hall empty guarded_empty

/-- As many keys are held as the guards have together. -/
theorem Guarded.size (h : r.Guarded) : r.table.size = (r.guards.map List.length).sum := by
  have hheld : r.table.held.keys.Nodup :=
    KeyOrder.nodup_of_ordered (OrderedMap.keys_ordered r.table.held)
  have hguards : r.guards.flatten.Nodup :=
    List.nodup_flatten.2 ⟨fun guard hguard => KeyOrder.nodup_of_ordered (h.ordered guard hguard),
      h.union.disjoint⟩
  -- neither list repeats a key, so having the same keys is enough
  have hperm : r.table.held.keys.Perm r.guards.flatten := by
    refine (List.perm_ext_iff_of_nodup hheld hguards).2 fun k => ?_
    rw [OrderedMap.mem_keys_iff, List.mem_flatten]
    exact h.union.locked k
  have hlen := hperm.length_eq
  rwa [OrderedMap.keys, List.length_map, List.length_flatten] at hlen

/-- Dropping a guard gives up its keys, and other guards keep theirs. -/
theorem Guarded.drop (h : r.Guarded) {i : Nat} {guard : List κ}
    (hguard : r.guards[i]? = some guard) :
    (∀ k, (r.act (.drop i)).table.isLocked k = true ↔ r.table.isLocked k = true ∧ k ∉ guard) ∧
      (r.act (.drop i)).guards = r.guards.eraseIdx i ∧
      ∀ other ∈ r.guards.eraseIdx i, ∀ k ∈ other, (r.act (.drop i)).table.isLocked k = true := by
  classical
  have hact : r.act (.drop i) = ⟨r.table.release guard, r.guards.eraseIdx i⟩ := by
    rw [Registry.act, hguard]
  have hafter := (h.act (.drop i)).union
  rw [hact] at hafter ⊢
  exact ⟨LockTable.isLocked_release r.table guard, rfl,
    fun other hother k hk => (hafter.locked k).2 ⟨other, hother, hk⟩⟩

/-- **A lock table excludes.**  Take any run of claims and drops of guards.  The keys held are
those of the live guards, no two of which have a key in common, so as many are held as the guards
have together.  A claim is granted if and only if none of its keys is held; its guard then has the
different keys of the request, ascending.  A claim that is refused changes nothing and names the
least of its keys that is held.  Neither the order of a request nor repetitions in it matter.
Dropping a guard gives up its keys and none of another guard. -/
theorem claims_exclude (actions : List (Action κ)) :
    let r := run actions
    r.table.IsUnion r.guards ∧
    r.table.size = (r.guards.map List.length).sum ∧
    (∀ guard ∈ r.guards, guard.Pairwise fun a b => before a b = true) ∧
    (∀ ks, r.table.Decides ks ∧
      (∀ claimed table, r.table.claim ks = .ok (claimed, table) →
        r.act (.claim ks) = ⟨table, r.guards ++ [claimed]⟩) ∧
      ∀ k, r.table.claim ks = .error k → r.act (.claim ks) = r) ∧
    ∀ i guard, r.guards[i]? = some guard →
      (∀ k, (r.act (.drop i)).table.isLocked k = true ↔
        r.table.isLocked k = true ∧ k ∉ guard) ∧
      (r.act (.drop i)).guards = r.guards.eraseIdx i ∧
      ∀ other ∈ r.guards.eraseIdx i, ∀ k ∈ other,
        (r.act (.drop i)).table.isLocked k = true := by
  intro r
  have hguarded : r.Guarded := guarded_run actions
  refine ⟨hguarded.union, hguarded.size, hguarded.ordered, fun ks => ⟨r.table.decides ks, ?_, ?_⟩,
    fun i guard hguard => hguarded.drop hguard⟩
  · intro claimed table hclaim
    rw [act, hclaim]
  · intro k hclaim
    rw [act, hclaim]

/-- The least key that is held is named, wherever it stands in the request. -/
example : (run [Action.claim [7, 2], .claim [4], .drop 1]).table.claim [9, 7, 4, 2] =
    .error 2 := by rfl

end Registry

end EdgeDeletion
