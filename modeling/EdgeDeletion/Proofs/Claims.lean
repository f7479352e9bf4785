/-
Claims on a lock table.

A claim that succeeds holds keys that nobody held (`claim_of_ok`), so giving them up
leads back to the table before the claim (`release_hold`).

A table that is the disjoint union of some claims (`IsUnion`) stays one when a claim
succeeds and when one is given up.
-/
import EdgeDeletion.LockTable
import Mathlib.Data.List.Basic

namespace EdgeDeletion

universe u

namespace LockTable

variable {κ : Type u} [KeyOrder κ]

/-- The table when keys are held besides those that are held already. -/
def hold (t : LockTable κ) (ks : List κ) : LockTable κ :=
  ⟨ks.foldl (fun s k => s.insert k ()) t.held⟩

theorem claim_of_ok {t t' : LockTable κ} {ks claimed : List κ}
    (h : t.claim ks = .ok (claimed, t')) :
    claimed = distinct ks ∧ t' = t.hold claimed ∧ ∀ k ∈ claimed, t.isLocked k = false := by
  rw [claim] at h
  cases hfind : (distinct ks).find? t.isLocked with
  | some k => simp [hfind] at h
  | none =>
    simp only [hfind, Except.ok.injEq, Prod.mk.injEq] at h
    obtain ⟨rfl, rfl⟩ := h
    exact ⟨rfl, rfl, by simpa using hfind⟩

/-- Tables that hold the same keys are equal. -/
theorem ext_isLocked {t t' : LockTable κ} (h : ∀ k, t.isLocked k = true ↔ t'.isLocked k = true) :
    t = t' := by
  obtain ⟨held⟩ := t
  obtain ⟨held'⟩ := t'
  refine congrArg _ (OrderedMap.ext fun k => ?_)
  have h := h k
  simp only [isLocked, OrderedMap.contains] at h
  cases hk : held.get? k <;> cases hk' : held'.get? k <;> simp_all

variable [DecidableEq κ]

theorem isLocked_hold (t : LockTable κ) (ks : List κ) (k : κ) :
    (t.hold ks).isLocked k = true ↔ k ∈ ks ∨ t.isLocked k = true := by
  induction ks generalizing t with
  | nil => simp [hold]
  | cons a ks ih =>
    have ih := ih ⟨t.held.insert a ()⟩
    rw [hold, List.foldl_cons]
    refine ih.trans ?_
    simp only [isLocked, OrderedMap.contains, OrderedMap.get?_insert, List.mem_cons]
    by_cases hk : k = a <;> simp [hk]

/-- The keys of a claim are those that were asked for. -/
theorem mem_distinct {ks : List κ} {k : κ} : k ∈ distinct ks ↔ k ∈ ks := by
  have hhold := isLocked_hold (empty : LockTable κ) ks k
  rw [distinct, OrderedMap.mem_keys_iff]
  refine hhold.trans ⟨fun h => ?_, .inl⟩
  rcases h with h | h
  · exact h
  · simp [isLocked, empty, OrderedMap.contains] at h

theorem isLocked_release (t : LockTable κ) (ks : List κ) (k : κ) :
    (t.release ks).isLocked k = true ↔ t.isLocked k = true ∧ k ∉ ks := by
  induction ks generalizing t with
  | nil => simp [release]
  | cons a ks ih =>
    have ih := ih ⟨t.held.erase a⟩
    rw [release, List.foldl_cons]
    refine ih.trans ?_
    simp only [isLocked, OrderedMap.contains, OrderedMap.get?_erase, List.mem_cons]
    by_cases hk : k = a <;> simp [hk]

theorem release_hold {t : LockTable κ} {ks : List κ} (h : ∀ k ∈ ks, t.isLocked k = false) :
    (t.hold ks).release ks = t := by
  refine ext_isLocked fun k => ?_
  rw [isLocked_release, isLocked_hold]
  constructor
  · rintro ⟨hk | hk, hnot⟩
    · exact absurd hk hnot
    · exact hk
  · intro hk
    refine ⟨.inr hk, fun hmem => ?_⟩
    rw [h k hmem] at hk
    simp at hk

/-! ### Tables as unions of claims -/

/-- The table holds what the claims name, and no two claims name the same key. -/
structure IsUnion (t : LockTable κ) (claims : List (List κ)) : Prop where
  locked : ∀ k, t.isLocked k = true ↔ ∃ claim ∈ claims, k ∈ claim
  disjoint : claims.Pairwise List.Disjoint

omit [DecidableEq κ] in
theorem isUnion_empty : (empty : LockTable κ).IsUnion [] :=
  ⟨fun k => by simp [isLocked, empty, OrderedMap.contains], .nil⟩

theorem IsUnion.hold {t : LockTable κ} {front back : List (List κ)} {claim : List κ}
    (h : t.IsUnion (front ++ back)) (hfree : ∀ k ∈ claim, t.isLocked k = false) :
    (t.hold claim).IsUnion (front ++ claim :: back) := by
  constructor
  · intro k
    rw [isLocked_hold, h.locked]
    constructor
    · rintro (hk | ⟨other, hother, hk⟩)
      · exact ⟨claim, by simp, hk⟩
      · exact ⟨other, by simp only [List.mem_append, List.mem_cons] at hother ⊢; tauto, hk⟩
    · rintro ⟨other, hother, hk⟩
      simp only [List.mem_append, List.mem_cons] at hother ⊢
      rcases hother with hother | rfl | hother
      · exact .inr ⟨other, .inl hother, hk⟩
      · exact .inl hk
      · exact .inr ⟨other, .inr hother, hk⟩
  · refine (List.pairwise_middle List.disjoint_symm).2 (List.pairwise_cons.2 ⟨?_, h.disjoint⟩)
    intro other hother k hk hk'
    have hlocked := (h.locked k).2 ⟨other, hother, hk'⟩
    rw [hfree k hk] at hlocked
    simp at hlocked

theorem IsUnion.release {t : LockTable κ} {front back : List (List κ)} {claim : List κ}
    (h : t.IsUnion (front ++ claim :: back)) : (t.release claim).IsUnion (front ++ back) := by
  obtain ⟨hclaim, hothers⟩ := List.pairwise_cons.1
    ((List.pairwise_middle List.disjoint_symm).1 h.disjoint)
  refine ⟨fun k => ?_, hothers⟩
  rw [isLocked_release, h.locked]
  constructor
  · rintro ⟨⟨other, hother, hk⟩, hnot⟩
    refine ⟨other, ?_, hk⟩
    simp only [List.mem_append, List.mem_cons] at hother ⊢
    rcases hother with hother | rfl | hother
    · exact .inl hother
    · exact absurd hk hnot
    · exact .inr hother
  · rintro ⟨other, hother, hk⟩
    refine ⟨⟨other, ?_, hk⟩, fun hk' => hclaim other hother hk' hk⟩
    simp only [List.mem_append, List.mem_cons] at hother ⊢
    exact hother.imp id .inr

end LockTable

end EdgeDeletion
