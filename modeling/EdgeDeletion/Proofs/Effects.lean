/-
What the turn of a partition does to the stored keys.

A turn may submit a write, which is applied at once or held back.  Whenever that is, the
write takes away the keys that the turn has planned to remove, and it adds lines to the
log under the numbers that the turn has drawn.

* `does_of_verdict` — this for every write that is submitted in a turn;
* `write_of_succeeded` — a turn that reports success has submitted one.
-/
import EdgeDeletion.Proofs.Frame
import EdgeDeletion.Proofs.Replanning

namespace EdgeDeletion

namespace Node

variable {n : Node} {t : Turn}

/-- The keys that a turn removes, from what is stored. -/
def removedIn (n : Node) (t : Turn) : List Bytes :=
  if t.indexes.isEmpty then t.edges.map (Key.record t.vidLen t.place.part)
  else Step.removedKeys (n.stepsOf t (n.store.stored t.place))

/-- The index keys whose removal a turn defers, from what is stored. -/
def deferredIn (n : Node) (t : Turn) : List Bytes :=
  if t.indexes.isEmpty then [] else Step.deferredKeys (n.stepsOf t (n.store.stored t.place))

/-- The numbers that a turn draws. -/
def numbersIn (n : Node) (t : Turn) : List UInt64 :=
  (n.sequencer.drawMany (n.deferredIn t).length).1

theorem length_numbersIn (n : Node) (t : Turn) :
    (n.numbersIn t).length = (n.deferredIn t).length := Sequencer.length_drawMany ..

theorem removedIn_of_contents {c : Contents} (hindexes : t.indexes.isEmpty = false)
    (hc : n.store.contents t.place = .ok c) :
    n.removedIn t = Step.removedKeys (n.stepsOf t c) := by
  rw [removedIn, hindexes, Store.stored_of_contents hc]
  rfl

theorem deferredIn_of_contents {c : Contents} (hindexes : t.indexes.isEmpty = false)
    (hc : n.store.contents t.place = .ok c) :
    n.deferredIn t = Step.deferredKeys (n.stepsOf t c) := by
  rw [deferredIn, hindexes, Store.stored_of_contents hc]
  rfl

/-- What the write of a turn comes to, whenever it is applied. -/
theorem does_of_verdict {change : Change} {edges : Nat} {hold : Option Hold}
    (h : n.verdict t = .write change edges hold) :
    change.Does t.place.part (n.removedIn t) ((n.numbersIn t).zip (n.deferredIn t)) ∧
      (∀ k ∈ n.removedIn t, k.head? ≠ some Key.operationTag) ∧
      (n.planned t).sequencer = (n.sequencer.drawMany (n.deferredIn t).length).2 := by
  rw [numbersIn, deferredIn, removedIn, planned]
  rcases of_verdict_write h with ⟨hindexes, -, rfl, -⟩ | ⟨hindexes, herror, rfl, -⟩
  · simp only [if_pos hindexes]
    have hdoes := does_remove t.place.part (t.edges.map (Key.record t.vidLen t.place.part))
    refine ⟨hdoes, ?_, rfl⟩
    intro k hk
    obtain ⟨edge, -, rfl⟩ := List.mem_map.1 hk
    rw [Key.head?_record]
    decide
  · obtain ⟨hplan, hsteps⟩ := Scene.plan_stored herror
    have hsteps : (n.planOf t).steps = n.stepsOf t (n.store.stored t.place) := hsteps
    have hremoved : ∀ k ∈ Step.removedKeys (n.stepsOf t (n.store.stored t.place)),
        k.head? ≠ some Key.operationTag :=
      fun k hk => Scene.head?_of_mem_removedKeys (fun e he => (hplan e he).2) hk
    simp only [hindexes, Bool.false_eq_true, if_false, opsOf, hsteps]
    exact ⟨does_batch hremoved _, hremoved, Step.toOps_snd ..⟩

/-- A turn that succeeds has submitted a write, and that has succeeded. -/
theorem write_of_succeeded (hheld : n.store.held = none) (hlen : t.request < n.requests.length)
    (hnone : n.codeOf? t.request t.place.part = none)
    (hcode : (n.work t).codeOf? t.request t.place.part = some .succeeded) :
    ∃ change edges hold, n.verdict t = .write change edges hold ∧
      ((n.planned t).store.counted.apply (t.write change edges hold)).2.result = .ok () ∧
      (n.work t).store
        = ((n.planned t).store.counted.apply (t.write change edges hold)).1 := by
  rw [codeOf?_work hheld hlen hnone] at hcode
  rw [store_work hheld]
  cases hverdict : n.verdict t with
  | refused e =>
    simp only [hverdict, Option.some.injEq] at hcode
    exact absurd hcode e.code_ne_succeeded
  | write change edges hold =>
    simp only [hverdict] at hcode ⊢
    have hlost : ¬n.losesNext = true := by
      intro hlost
      simp [if_pos hlost] at hcode
    rw [if_neg hlost] at hcode ⊢
    exact ⟨change, edges, hold, rfl, outcomeCode_eq_succeeded_iff.1 (Option.some.inj hcode), rfl⟩

end Node

end EdgeDeletion
