/-
The turns of the partitions of a request.

A request is worked on partition by partition.  Each `Turn` is judged by what the
node knows, and the `Verdict` fixes what happens:

* `quiet_work` — a turn that is refused only reports; any other one claims its edges
  and submits its write;
* `quiet_work_of_not_held` — on a node that holds no writes back, the write is over by
  the end of the turn, and so are its claims.

The turns are stated for `quiet` nodes, whose trace and counters are left out.
-/
import EdgeDeletion.Proofs.Claims
import EdgeDeletion.Proofs.Completions
import EdgeDeletion.Proofs.Planning

namespace EdgeDeletion

/-! ### Turns and verdicts -/

/-- A partition of a request, with what is known of its space. -/
structure Turn where
  request : Nat
  place : Place
  vidLen : Nat
  indexes : List Index
  edges : List Edge

def Turn.ids (t : Turn) : List EdgeId := t.edges.map fun e => ⟨t.place, e⟩

def Turn.write (t : Turn) (change : Change) (edges : Nat) (hold : Option Hold) : Write Submitter :=
  ⟨t.place, change, .partition t.request t.place.part edges hold⟩

/-- What becomes of a turn. -/
inductive Verdict where
  /-- Nothing is submitted. -/
  | refused (e : DeleteError)
  /-- A write that removes a number of edges is submitted and keeps what it has claimed. -/
  | write (change : Change) (edges : Nat) (hold : Option Hold)

namespace Node

variable (n : Node) (t : Turn)

def work : Node :=
  if t.indexes.isEmpty then n.deletePlain t.request t.place t.vidLen t.edges
  else n.deleteIndexed t.request t.place t.vidLen t.indexes t.edges

/-- What the plan of a turn is made from. -/
def scene : Scene := ⟨n.catalog, n.markers, t.indexes, t.place, t.vidLen, n.inflight + 1⟩

/-- What a turn removes and defers, from the contents of the partition. -/
def stepsOf (c : Contents) : List Step := t.edges.flatMap ((n.scene t).edgeSteps c)

/-- The plan of a turn in a space with indexes. -/
def planOf : Plan := ((n.scene t).plan n.store t.edges).2

/-- The operations of the plan of a turn, and the sequencer after them. -/
def opsOf : List BatchOp × Sequencer := Step.toOps t.place.part n.sequencer (n.planOf t).steps

/-- The node when the plan of a turn was made. -/
def planned : Node :=
  if t.indexes.isEmpty then n
  else { n with store := ((n.scene t).plan n.store t.edges).1, sequencer := (n.opsOf t).2 }

/-- What becomes of a turn. -/
def verdict : Verdict :=
  if t.indexes.isEmpty then
    match t.edges.findSome? (Scene.widthError? t.vidLen) with
    | some e => .refused e
    | none => .write (.remove (t.edges.map (Key.record t.vidLen t.place.part))) t.edges.length none
  else
    match (n.planOf t).error with
    | some e => .refused e
    | none =>
      match n.locks.claim t.ids with
      | .error edge => .refused (.conflict edge)
      | .ok (claimed, _) =>
        .write (.batch (Batch.encode (n.opsOf t).1)) ((n.planOf t).steps.countP Step.isRecord)
          (some ⟨claimed, (n.planOf t).steps.countP Step.isEntry⟩)

/-- Gives an index-aware write what it keeps until it is completed. -/
def grant : Option Hold → Node
  | none => n
  | some hold => { n with locks := n.locks.hold hold.claimed, inflight := n.inflight + 1 }

/-- A turn in a space without indexes. -/
theorem quiet_deletePlain :
    (n.deletePlain t.request t.place t.vidLen t.edges).quiet =
      (match t.edges.findSome? (Scene.widthError? t.vidLen) with
      | some e => n.report t.request t.place.part e.code
      | none =>
        n.submitPart t.place (.remove (t.edges.map (Key.record t.vidLen t.place.part))) t.request
          t.edges.length none).quiet := by
  rw [deletePlain]
  cases hwidth : t.edges.findSome? (Scene.widthError? t.vidLen) with
  | some e =>
    simp only
    rw [← report_quiet, quiet_emit, report_quiet]
  | none =>
    simp only [List.length_map]
    rw [← submitPart_quiet, quiet_emit, submitPart_quiet]

/-- A turn in a space with indexes, from where its keys are planned. -/
theorem deleteIndexed_of_planned {m : Node}
    (hm : m = { n with
      store := ((n.scene t).plan n.store t.edges).1
      sequencer := (n.opsOf t).2 }.track.emitAll (n.planOf t).trace) :
    n.deleteIndexed t.request t.place t.vidLen t.indexes t.edges =
      match (n.planOf t).error with
      | some e =>
        ((m.emit (.log (.batchFailed t.place e))).report t.request t.place.part e.code).untrack
      | none =>
        match m.claim t.ids with
        | .error edge =>
          let m := m.emit (.signal .lockConflict)
          let shown := if m.options.logConflictKeys then some edge else none
          ((m.emit (.log (.lockConflict t.place.part shown))).report t.request t.place.part
            (DeleteError.conflict edge).code).untrack
        | .ok (claimed, m) =>
          let m := m.emit (.signal (.removalsDeferred
            (UInt64.ofNat ((n.planOf t).steps.countP Step.isDeferral))))
          let payload := Batch.encode (n.opsOf t).1
          let m := m.emit (.call (.batch t.place payload m.locks.size m.inflight))
          m.submitPart t.place (.batch payload) t.request ((n.planOf t).steps.countP Step.isRecord)
            (some ⟨claimed, (n.planOf t).steps.countP Step.isEntry⟩) := by
  rw [hm]
  rfl

/-- The write is counted as in flight all along, so it has to be taken out of the count again when
nothing is submitted. -/
theorem quiet_deleteIndexed {m : Node}
    (hm : m = { n with
      store := ((n.scene t).plan n.store t.edges).1
      sequencer := (n.opsOf t).2 }) :
    (n.deleteIndexed t.request t.place t.vidLen t.indexes t.edges).quiet =
      (match (n.planOf t).error with
      | some e => m.report t.request t.place.part e.code
      | none =>
        match n.locks.claim t.ids with
        | .error edge => m.report t.request t.place.part (DeleteError.conflict edge).code
        | .ok (claimed, locks) =>
          { m with locks := locks, inflight := n.inflight + 1 }.submitPart t.place
            (.batch (Batch.encode (n.opsOf t).1)) t.request
            ((n.planOf t).steps.countP Step.isRecord)
            (some ⟨claimed, (n.planOf t).steps.countP Step.isEntry⟩)).quiet := by
  obtain ⟨m', hm'⟩ : ∃ m', m' = m.track.emitAll (n.planOf t).trace := ⟨_, rfl⟩
  have hquiet : m'.quiet = m.track.quiet := by rw [hm', quiet_emitAll]
  have hlocks : m'.locks = n.locks := (congrArg Node.locks hquiet).trans (by rw [hm]; rfl)
  -- counting up and down again leads back
  have huntrack : m'.quiet.untrack = m.quiet := by
    rw [hquiet]
    rfl
  rw [deleteIndexed_of_planned n t (hm'.trans (by rw [hm]))]
  cases herror : (n.planOf t).error with
  | some e =>
    simp only
    rw [aside_untrack.report, ← report_quiet, quiet_untrack, quiet_emit, huntrack, report_quiet]
  | none =>
    simp only [claim, hlocks]
    cases hclaim : n.locks.claim t.ids with
    | error edge =>
      simp only [Except.map]
      rw [aside_untrack.report, ← report_quiet, quiet_untrack, quiet_emit, quiet_emit, huntrack,
        report_quiet]
    | ok claimed =>
      simp only [Except.map]
      rw [← submitPart_quiet, quiet_emit, quiet_emit]
      show (Node.submitPart { m'.quiet with locks := claimed.2 } _ _ _ _ _).quiet = _
      rw [hquiet, ← submitPart_quiet { m with locks := claimed.2, inflight := n.inflight + 1 }]
      rw [hm]
      rfl

/-- A turn that is refused only reports; any other one claims its edges and submits its write. -/
theorem quiet_work :
    (n.work t).quiet =
      (match n.verdict t with
      | .refused e => (n.planned t).report t.request t.place.part e.code
      | .write change edges hold =>
        ((n.planned t).grant hold).submitPart t.place change t.request edges hold).quiet := by
  by_cases hindexes : t.indexes.isEmpty = true
  · rw [work, verdict, planned, if_pos hindexes, if_pos hindexes, if_pos hindexes,
      quiet_deletePlain]
    cases hwidth : t.edges.findSome? (Scene.widthError? t.vidLen) <;> rfl
  · rw [work, verdict, planned, if_neg hindexes, if_neg hindexes, if_neg hindexes,
      quiet_deleteIndexed n t rfl]
    cases herror : (n.planOf t).error with
    | some e => rfl
    | none =>
      cases hclaim : n.locks.claim t.ids with
      | error edge => rfl
      | ok claimed =>
        obtain ⟨claimed, locks⟩ := claimed
        obtain ⟨-, rfl, -⟩ := LockTable.claim_of_ok hclaim
        rfl

/-! ### Verdicts -/

section

variable {n : Node} {t : Turn}

/-- What is known of a turn whose write is submitted. -/
theorem of_verdict_write {change : Change} {edges : Nat} {hold : Option Hold}
    (h : n.verdict t = .write change edges hold) :
    (t.indexes.isEmpty = true ∧ t.edges.findSome? (Scene.widthError? t.vidLen) = none ∧
      change = .remove (t.edges.map (Key.record t.vidLen t.place.part)) ∧ hold = none) ∨
    (t.indexes.isEmpty = false ∧ (n.planOf t).error = none ∧
      change = .batch (Batch.encode (n.opsOf t).1) ∧
      ∃ entries, hold = some ⟨LockTable.distinct t.ids, entries⟩ ∧
        ∀ id ∈ LockTable.distinct t.ids, n.locks.isLocked id = false) := by
  rw [verdict] at h
  by_cases hindexes : t.indexes.isEmpty = true
  · rw [if_pos hindexes] at h
    cases hwidth : t.edges.findSome? (Scene.widthError? t.vidLen) with
    | some e => simp [hwidth] at h
    | none =>
      simp only [hwidth, Verdict.write.injEq] at h
      obtain ⟨hchange, -, hhold⟩ := h
      exact .inl ⟨hindexes, rfl, hchange.symm, hhold.symm⟩
  · rw [if_neg hindexes] at h
    cases herror : (n.planOf t).error with
    | some e => simp [herror] at h
    | none =>
      cases hclaim : n.locks.claim t.ids with
      | error edge => simp [herror, hclaim] at h
      | ok claimed =>
        obtain ⟨claimed, locks⟩ := claimed
        simp only [herror, hclaim, Verdict.write.injEq] at h
        obtain ⟨hchange, -, hhold⟩ := h
        obtain ⟨rfl, -, hfree⟩ := LockTable.claim_of_ok hclaim
        exact .inr ⟨by simpa using hindexes, rfl, hchange.symm, _, hhold.symm, hfree⟩

/-- Whatever a write keeps was free before. -/
theorem free_of_verdict {change : Change} {edges : Nat} {hold : Option Hold}
    (h : n.verdict t = .write change edges hold) :
    ∀ held, hold = some held → ∀ id ∈ held.claimed, n.locks.isLocked id = false := by
  rintro held rfl
  rcases of_verdict_write h with ⟨-, -, -, hnone⟩ | ⟨-, -, -, entries, hsome, hfree⟩
  · simp at hnone
  · rw [Option.some.inj hsome]
    exact hfree

/-- Giving up what was just granted leads back. -/
theorem releaseHold_grant {hold : Option Hold}
    (hfree : ∀ held, hold = some held → ∀ id ∈ held.claimed, n.locks.isLocked id = false) :
    (n.grant hold).releaseHold hold = n := by
  cases hold with
  | none => rfl
  | some held =>
    show { n with locks := (n.locks.hold held.claimed).release held.claimed, inflight := _ } = n
    rw [LockTable.release_hold (hfree held rfl)]
    rfl

theorem grant_with_store (n : Node) (hold : Option Hold) (s : Store Submitter) :
    { n.grant hold with store := s } = { n with store := s }.grant hold := by
  cases hold <;> rfl

theorem grant_with_losesNext (n : Node) (hold : Option Hold) (l : Bool) :
    { n.grant hold with losesNext := l } = { n with losesNext := l }.grant hold := by
  cases hold <;> rfl

theorem store_grant (n : Node) (hold : Option Hold) : (n.grant hold).store = n.store := by
  cases hold <;> rfl

theorem losesNext_grant (n : Node) (hold : Option Hold) :
    (n.grant hold).losesNext = n.losesNext := by
  cases hold <;> rfl

end

/-- A plan uses up failures of scans and draws numbers, and that is all. -/
theorem planned_eq : ∃ faults k, n.planned t
    = { n with
        store := { n.store with scanFaults := faults }
        sequencer := (n.sequencer.drawMany k).2 } := by
  rw [planned]
  by_cases hindexes : t.indexes.isEmpty = true
  · exact ⟨n.store.scanFaults, 0, by rw [if_pos hindexes]; rfl⟩
  · obtain ⟨faults, hfaults⟩ := (n.scene t).plan_store n.store t.edges
    refine ⟨faults, (Step.deferredKeys (n.planOf t).steps).length, ?_⟩
    rw [if_neg hindexes, hfaults, opsOf, Step.toOps_snd]

theorem planned_locks : (n.planned t).locks = n.locks := by
  obtain ⟨faults, k, h⟩ := n.planned_eq t
  rw [h]

theorem planned_parts : (n.planned t).store.parts = n.store.parts := by
  obtain ⟨faults, k, h⟩ := n.planned_eq t
  rw [h]

theorem planned_held : (n.planned t).store.held = n.store.held := by
  obtain ⟨faults, k, h⟩ := n.planned_eq t
  rw [h]

theorem planned_submissions : (n.planned t).store.submissions = n.store.submissions := by
  obtain ⟨faults, k, h⟩ := n.planned_eq t
  rw [h]

theorem planned_losesNext : (n.planned t).losesNext = n.losesNext := by
  obtain ⟨faults, k, h⟩ := n.planned_eq t
  rw [h]

/-! ### Turns with and without held writes -/

/-- The node when a write of a turn was applied and reported. -/
def settle (w : Write Submitter) : Node :=
  { n with store := (n.store.counted.apply w).1 }.report t.request t.place.part
    (outcomeCode (n.store.counted.apply w).2.result)

/-- The node when a write of a turn is held back behind others. -/
def enqueue (queue : List (Write Submitter)) (w : Write Submitter) : Node :=
  { n with store := { n.store.counted with held := some (queue ++ [w]) } }

section

variable {n t} {change : Change} {edges : Nat} {hold : Option Hold}

/-- A write that gets lost gives up what it keeps, and that is all. -/
theorem quiet_submitPart_of_lost (hl : n.losesNext = true)
    (hfree : ∀ held, hold = some held → ∀ id ∈ held.claimed, n.locks.isLocked id = false) :
    ((n.grant hold).submitPart t.place change t.request edges hold).quiet
      = { n with losesNext := false }.quiet := by
  rw [submitPart, if_pos ((n.losesNext_grant hold).trans hl)]
  show (Node.releaseHold { n.grant hold with losesNext := false } hold).quiet = _
  rw [grant_with_losesNext]
  exact congrArg quiet (releaseHold_grant (n := { n with losesNext := false }) hfree)

/-- On a node that holds no writes back, a write is over at once, and what it keeps is given up. -/
theorem quiet_submitPart_of_not_held (h : n.store.held = none)
    (hfree : ∀ held, hold = some held → ∀ id ∈ held.claimed, n.locks.isLocked id = false) :
    ((n.grant hold).submitPart t.place change t.request edges hold).quiet
      = (if n.losesNext then { n with losesNext := false }
        else n.settle t (t.write change edges hold)).quiet := by
  by_cases hl : n.losesNext = true
  · rw [if_pos hl, quiet_submitPart_of_lost hl hfree]
  · rw [submitPart, if_neg hl, if_neg (fun hl' => hl ((n.losesNext_grant hold).symm.trans hl'))]
    have htoken := n.store.counted.apply_token (t.write change edges hold)
    show (Node.completeAll { n.grant hold with
      store := ((n.grant hold).store.submit (t.write change edges hold)).1 }
        ((n.grant hold).store.submit (t.write change edges hold)).2).quiet = _
    rw [store_grant, Store.submit_of_not_held h, grant_with_store, settle]
    -- the completion has the token of the write, so it gives up what was just granted
    generalize (n.store.counted.apply (t.write change edges hold)).2 = c at htoken ⊢
    generalize (n.store.counted.apply (t.write change edges hold)).1 = s
    obtain ⟨token, result, rejected⟩ := c
    obtain rfl : token = (t.write change edges hold).token := htoken
    refine (quiet_complete_partition ..).trans ?_
    rw [releaseHold_grant (n := { n with store := s }) hfree]

/-- On a paused node a write joins those held back, and what it keeps stays claimed. -/
theorem quiet_submitPart_of_held {queue : List (Write Submitter)} (h : n.store.held = some queue)
    (hfree : ∀ held, hold = some held → ∀ id ∈ held.claimed, n.locks.isLocked id = false) :
    ((n.grant hold).submitPart t.place change t.request edges hold).quiet
      = (if n.losesNext then { n with losesNext := false }
        else (n.grant hold).enqueue queue (t.write change edges hold)).quiet := by
  by_cases hl : n.losesNext = true
  · rw [if_pos hl, quiet_submitPart_of_lost hl hfree]
  · rw [submitPart, if_neg hl, if_neg (fun hl' => hl ((n.losesNext_grant hold).symm.trans hl'))]
    show (Node.completeAll { n.grant hold with
      store := ((n.grant hold).store.submit (t.write change edges hold)).1 }
        ((n.grant hold).store.submit (t.write change edges hold)).2).quiet = _
    rw [Store.submit_of_held ((congrArg Store.held (n.store_grant hold)).trans h)]
    rfl

theorem quiet_work_of_not_held (h : n.store.held = none) :
    (n.work t).quiet =
      (match n.verdict t with
      | .refused e => (n.planned t).report t.request t.place.part e.code
      | .write change edges hold =>
        if n.losesNext then { n.planned t with losesNext := false }
        else (n.planned t).settle t (t.write change edges hold)).quiet := by
  rw [quiet_work]
  cases hverdict : n.verdict t with
  | refused e => rfl
  | write change edges hold =>
    have hfree := free_of_verdict hverdict
    rw [← n.planned_locks t] at hfree
    simp only
    rw [quiet_submitPart_of_not_held ((n.planned_held t).trans h) hfree, planned_losesNext]

theorem quiet_work_of_held {queue : List (Write Submitter)} (h : n.store.held = some queue) :
    (n.work t).quiet =
      (match n.verdict t with
      | .refused e => (n.planned t).report t.request t.place.part e.code
      | .write change edges hold =>
        if n.losesNext then { n.planned t with losesNext := false }
        else ((n.planned t).grant hold).enqueue queue (t.write change edges hold)).quiet := by
  rw [quiet_work]
  cases hverdict : n.verdict t with
  | refused e => rfl
  | write change edges hold =>
    have hfree := free_of_verdict hverdict
    rw [← n.planned_locks t] at hfree
    simp only
    rw [quiet_submitPart_of_held ((n.planned_held t).trans h) hfree, planned_losesNext]

end

/-- The write that a turn submits, if it does. -/
def submitted : List (Write Submitter) :=
  match n.verdict t with
  | .refused _ => []
  | .write change edges hold => if n.losesNext then [] else [t.write change edges hold]

/-- A turn submits one write at most. -/
theorem submitted_eq : n.submitted t = [] ∨ ∃ w, n.submitted t = [w] := by
  rw [submitted]
  cases n.verdict t with
  | refused e => exact .inl rfl
  | write change edges hold =>
    by_cases hlost : n.losesNext = true
    · exact .inl (if_pos hlost)
    · exact .inr ⟨_, if_neg hlost⟩

theorem eq_write_of_submitted {w : Write Submitter} (h : w ∈ n.submitted t) :
    ∃ change edges hold, n.verdict t = .write change edges hold ∧
      w = t.write change edges hold := by
  rw [submitted] at h
  cases hverdict : n.verdict t with
  | refused e => simp [hverdict] at h
  | write change edges hold =>
    by_cases hlost : n.losesNext = true
    · simp [hverdict, hlost] at h
    · simp only [hverdict, if_neg hlost, List.mem_singleton] at h
      exact ⟨change, edges, hold, rfl, h⟩

/-- A turn on a paused node adds its write to those held back. -/
theorem held_work : (n.work t).store.held = n.store.held.map (· ++ n.submitted t) := by
  cases hheld : n.store.held with
  | none =>
    refine (congrArg (·.store.held) (quiet_work_of_not_held hheld)).trans ?_
    cases n.verdict t with
    | refused e =>
      exact (congrArg (·.held) (store_report ..)).trans ((n.planned_held t).trans hheld)
    | write change edges hold =>
      by_cases hlost : n.losesNext = true
      · simp only [if_pos hlost]
        exact (n.planned_held t).trans hheld
      · simp only [if_neg hlost]
        refine (congrArg (·.held) (store_report ..)).trans ?_
        exact (Store.apply_held ..).trans ((n.planned_held t).trans hheld)
  | some queue =>
    refine (congrArg (·.store.held) (quiet_work_of_held hheld)).trans ?_
    rw [submitted]
    cases n.verdict t with
    | refused e =>
      refine (congrArg (·.held) (store_report ..)).trans (((n.planned_held t).trans hheld).trans ?_)
      simp
    | write change edges hold =>
      by_cases hlost : n.losesNext = true
      · simp only [if_pos hlost]
        refine ((n.planned_held t).trans hheld).trans ?_
        simp
      · simp only [if_neg hlost]
        rfl

theorem work_quiet : (n.quiet.work t).quiet = (n.work t).quiet := by
  have hplanned : n.quiet.planned t = (n.planned t).quiet := by
    rw [planned, planned]
    by_cases hindexes : t.indexes.isEmpty = true
    · rw [if_pos hindexes, if_pos hindexes]
    · rw [if_neg hindexes, if_neg hindexes]
      rfl
  have hgrant : ∀ hold, (n.planned t).quiet.grant hold = ((n.planned t).grant hold).quiet := by
    intro hold
    cases hold <;> rfl
  rw [quiet_work, quiet_work, hplanned, show n.quiet.verdict t = n.verdict t from rfl]
  cases n.verdict t with
  | refused e => exact report_quiet ..
  | write change edges hold =>
    simp only [hgrant]
    exact submitPart_quiet ..

end Node

end EdgeDeletion
