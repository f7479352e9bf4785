/-
Steps of a plan and their operations.

A step takes a key away at once, or it defers the removal of an index key.  What is
deferred becomes a line of the log, under a number that is drawn for it:

* `drawMany_ascending` — the numbers that are drawn ascend until they run out;
* `apply_toOps` — the operations of steps take the removed keys away and add the
  deferred ones to the log, under the numbers drawn.
-/
import EdgeDeletion.Delete.Plan
import EdgeDeletion.Proofs.Contents
import EdgeDeletion.Proofs.KeyLayout
import Mathlib.Data.List.Basic
import Mathlib.Data.List.TakeWhile

namespace EdgeDeletion

universe u

/-! ### Draws -/

namespace Sequencer

theorem drawMany_add (q : Sequencer) (m n : Nat) :
    q.drawMany (m + n)
      = ((q.drawMany m).1 ++ ((q.drawMany m).2.drawMany n).1, ((q.drawMany m).2.drawMany n).2) := by
  induction m generalizing q with
  | zero => rw [Nat.zero_add]; rfl
  | succ m ih =>
    have ih := ih q.draw.2
    rw [Nat.succ_add]
    show (q.draw.1 :: (drawMany (m + n) q.draw.2).1, (drawMany (m + n) q.draw.2).2) = _
    rw [ih]
    rfl

theorem drawn_drawMany (q : Sequencer) (n : Nat) : (q.drawMany n).2.drawn = q.drawn + n := by
  induction n generalizing q with
  | zero => rfl
  | succ n ih =>
    have ih := ih q.draw.2
    have hdrawn : q.draw.2.drawn = q.drawn + 1 := rfl
    show (q.draw.2.drawMany n).2.drawn = _
    omega

theorem last_lt_next_of_ne {q : Sequencer} (h : q.last ≠ 0xffffffffffffffff) :
    q.last < q.next := by
  have hne : q.last.toNat ≠ 0xffffffffffffffff := fun heq => h (UInt64.toNat_inj.1 heq)
  have hlt := q.last.toNat_lt
  exact UInt64.lt_iff_toNat_lt.2 (q.last_lt_next (by omega))

/-- Numbers ascend strictly from the one on that was drawn last, as long as they do not run out:
only the last of them may be the greatest there is. -/
theorem last_cons_drawMany_ascending {q : Sequencer} {n : Nat}
    (h : ∀ x ∈ (q.last :: (q.drawMany n).1).dropLast, x ≠ 0xffffffffffffffff) :
    (q.last :: (q.drawMany n).1).Pairwise (· < ·) := by
  induction n generalizing q with
  | zero => exact List.pairwise_singleton ..
  | succ n ih =>
    obtain ⟨hlast, hrest⟩ := List.forall_mem_cons.1 h
    have hlt : q.last < q.next := last_lt_next_of_ne hlast
    have hascend : (q.next :: (q.draw.2.drawMany n).1).Pairwise (· < ·) := ih (q := q.draw.2) hrest
    refine List.pairwise_cons.2 ⟨List.forall_mem_cons.2 ⟨hlt, fun x hx => ?_⟩, hascend⟩
    exact UInt64.lt_trans hlt ((List.pairwise_cons.1 hascend).1 x hx)

/-- Numbers that do not run out are drawn in strictly ascending order. -/
theorem drawMany_ascending {q : Sequencer} {n : Nat}
    (h : ∀ x ∈ (q.drawMany n).1.dropLast, x ≠ 0xffffffffffffffff) :
    (q.drawMany n).1.Pairwise (· < ·) := by
  cases n with
  | zero => exact .nil
  | succ n => exact last_cons_drawMany_ascending (q := q.draw.2) h

theorem length_drawMany (q : Sequencer) (n : Nat) : (q.drawMany n).1.length = n := by
  induction n generalizing q with
  | zero => rfl
  | succ n ih => exact congrArg Nat.succ (ih q.draw.2)

end Sequencer

/-! ### Steps and their operations -/

namespace Step

/-- The key that a step takes away at once. -/
def removed? : Step → Option Bytes
  | .lock key | .entry key | .record key | .version key => some key
  | .deferral _ => none

/-- The index key whose removal a step defers. -/
def deferred? : Step → Option Bytes
  | .deferral key => some key
  | _ => none

/-- The keys that steps take away at once. -/
def removedKeys (steps : List Step) : List Bytes := steps.filterMap removed?

/-- The index keys whose removal steps defer, in order. -/
def deferredKeys (steps : List Step) : List Bytes := steps.filterMap deferred?

@[simp] theorem removedKeys_append (steps steps' : List Step) :
    removedKeys (steps ++ steps') = removedKeys steps ++ removedKeys steps' :=
  List.filterMap_append

@[simp] theorem deferredKeys_append (steps steps' : List Step) :
    deferredKeys (steps ++ steps') = deferredKeys steps ++ deferredKeys steps' :=
  List.filterMap_append

theorem mem_removedKeys_flatMap {α : Type u} {l : List α} {f : α → List Step} {k : Bytes} :
    k ∈ removedKeys (l.flatMap f) ↔ ∃ a ∈ l, k ∈ removedKeys (f a) := by
  simp only [removedKeys, List.mem_filterMap, List.mem_flatMap]
  constructor
  · rintro ⟨step, ⟨a, ha, hstep⟩, hk⟩
    exact ⟨a, ha, step, hstep, hk⟩
  · rintro ⟨a, ha, step, hstep, hk⟩
    exact ⟨step, ⟨a, ha, hstep⟩, hk⟩

theorem deferredKeys_flatMap {α : Type u} (l : List α) (f : α → List Step) :
    deferredKeys (l.flatMap f) = l.flatMap fun a => deferredKeys (f a) := by
  induction l with
  | nil => rfl
  | cons a l ih => rw [List.flatMap_cons, List.flatMap_cons, deferredKeys_append, ih]

theorem removedKeys_map {f : Bytes × Bytes → Step} (h : ∀ e, (f e).removed? = some e.1)
    (es : List (Bytes × Bytes)) : removedKeys (es.map f) = es.map Prod.fst := by
  rw [removedKeys, List.filterMap_map, ← List.filterMap_eq_map]
  exact congrArg (List.filterMap · es) (funext h)

theorem deferredKeys_map {f : Bytes × Bytes → Step} (h : ∀ e, (f e).deferred? = none)
    (es : List (Bytes × Bytes)) : deferredKeys (es.map f) = [] := by
  rw [deferredKeys, List.filterMap_map]
  exact List.filterMap_eq_nil_iff.2 fun e _ => h e

theorem countP_isDeferral (steps : List Step) :
    steps.countP isDeferral = (deferredKeys steps).length := by
  rw [deferredKeys, List.length_filterMap_eq_countP]
  refine List.countP_congr fun step _ => ?_
  cases step <;> simp [isDeferral, deferred?]

/-- The sequencer after the operations of steps. -/
theorem toOps_snd (part : PartId) (q : Sequencer) (steps : List Step) :
    (toOps part q steps).2 = (q.drawMany (deferredKeys steps).length).2 := by
  induction steps generalizing q with
  | nil => rfl
  | cons step steps ih =>
    cases step with
    | deferral key => exact ih q.draw.2
    | _ => exact ih q

/-- The operations of steps take the removed keys away and add the deferred ones to the log, under
the numbers drawn. -/
theorem apply_toOps {part : PartId} {steps : List Step}
    (h : ∀ k ∈ removedKeys steps, k.head? ≠ some Key.operationTag) (q : Sequencer) (c : Contents) :
    c.apply (toOps part q steps).1
      = (c.without (removedKeys steps)).withLog part
          ((q.drawMany (deferredKeys steps).length).1.zip (deferredKeys steps)) := by
  induction steps generalizing q c with
  | nil => simp [toOps, removedKeys, deferredKeys, Sequencer.drawMany]
  | cons step steps ih =>
    have hstep : ∀ key, step.removed? = some key → key.head? ≠ some Key.operationTag :=
      fun key hk => h key (List.mem_filterMap.2 ⟨step, by simp, hk⟩)
    have ih := ih fun k hk => by
      obtain ⟨s, hs, hk⟩ := List.mem_filterMap.1 hk
      exact h k (List.mem_filterMap.2 ⟨s, by simp [hs], hk⟩)
    -- a removal of one key, whatever its reason
    have herase : ∀ key, Contents.apply (c.erase key) (toOps part q steps).1
        = (c.without (key :: removedKeys steps)).withLog part
            ((q.drawMany (deferredKeys steps).length).1.zip (deferredKeys steps)) := by
      intro key
      rw [ih, Contents.erase_eq_without, ← Contents.without_append]
      rfl
    cases step with
    | deferral key =>
      -- the new line of the log stays, since no later step takes lines of the log away
      have hne : Key.deferral part q.draw.1 ∉ removedKeys steps := by
        intro hmem
        obtain ⟨s, hs, hk⟩ := List.mem_filterMap.1 hmem
        exact h _ (List.mem_filterMap.2 ⟨s, by simp [hs], hk⟩) (Key.head?_deferral part _)
      show Contents.apply (c.insert (Key.deferral part q.draw.1) key) (toOps part q.draw.2 steps).1
        = _
      rw [ih, Contents.insert_without hne]
      rfl
    | lock key => exact herase key
    | entry key => exact herase key
    | record key => exact herase key
    | version key => exact herase key

end Step

end EdgeDeletion
