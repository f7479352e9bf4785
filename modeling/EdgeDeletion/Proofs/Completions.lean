/-
What reports and completed writes change.

When the store is done with the write of a partition, what the write keeps is given up,
the outcome is noted, and the partition reports.  Most of what follows from this has to
do with neither the trace nor the counters, and `quiet` leaves them out.

* `quiet_report`, `quiet_complete_partition` — what a report and the end of a write change;
* `Aside` — changes that reports and completed writes have nothing to do with;
* `resume_eq` — at the end of a pause it makes no difference that the submitter of a write
  is told before the next write is applied.
-/
import EdgeDeletion.Delete.Node
import EdgeDeletion.Proofs.Contents
import EdgeDeletion.Proofs.Reports

namespace EdgeDeletion

namespace Node

/-! ### Trace and counters left out -/

/-- A node apart from its trace and its counters. -/
def quiet (n : Node) : Node := { n with trace := [], counters := none }

@[simp] theorem quiet_emit (n : Node) (e : Event) : (n.emit e).quiet = n.quiet := rfl

@[simp] theorem quiet_emitAll (n : Node) (es : List Event) : (n.emitAll es).quiet = n.quiet := by
  induction es generalizing n with
  | nil => rfl
  | cons e es ih => exact (ih (n.emit e)).trans (n.quiet_emit e)

theorem quiet_untrack (n : Node) : n.untrack.quiet = n.quiet.untrack := rfl

/-- What a report changes. -/
theorem quiet_report (n : Node) (request : Nat) (part : PartId) (code : ResultCode) :
    (n.report request part code).quiet
      = { n.quiet with
          requests := n.requests.modify request fun c => (c.report n.now part code).1 } := by
  rw [report]
  cases hc : n.requests[request]? with
  | none =>
    have hlen : n.requests.length ≤ request := List.getElem?_eq_none_iff.1 hc
    simp only
    rw [List.modify_eq_self hlen]
    rfl
  | some c =>
    simp only [quiet_emitAll]
    rw [List.modify_eq_set_getElem?, hc]
    rfl

theorem store_report (n : Node) (request : Nat) (part : PartId) (code : ResultCode) :
    (n.report request part code).store = n.store := by
  show (n.report request part code).quiet.store = _
  rw [quiet_report]
  rfl

theorem sequencer_report (n : Node) (request : Nat) (part : PartId) (code : ResultCode) :
    (n.report request part code).sequencer = n.sequencer := by
  show (n.report request part code).quiet.sequencer = _
  rw [quiet_report]
  rfl

/-- The code that a partition has reported to a request. -/
def codeOf? (n : Node) (request : Nat) (part : PartId) : Option ResultCode :=
  n.requests[request]?.bind fun c => c.code? part

theorem codeOf?_report (n : Node) (request request' : Nat) (part part' : PartId)
    (code : ResultCode) :
    (n.report request part code).codeOf? request' part'
      = n.requests[request']?.bind fun c =>
          if request' = request ∧ part' = part then some ((c.code? part).getD code)
          else c.code? part' := by
  have hrequests : (n.report request part code).requests
      = n.requests.modify request fun c => (c.report n.now part code).1 :=
    congrArg Node.requests (n.quiet_report request part code)
  rw [codeOf?, hrequests, List.getElem?_modify]
  by_cases hrequest : request = request'
  · subst hrequest
    cases n.requests[request]? <;> simp [Collector.code?_report]
  · simp [hrequest, Ne.symm hrequest]

/-- The first report of a partition is its code. -/
theorem codeOf?_report_self {n : Node} {request : Nat} (h : request < n.requests.length)
    (part : PartId) (code : ResultCode) :
    (n.report request part code).codeOf? request part
      = some ((n.codeOf? request part).getD code) := by
  rw [codeOf?_report, codeOf?, List.getElem?_eq_getElem h]
  simp

/-- A report says nothing of other partitions and other requests. -/
theorem codeOf?_report_of_ne (n : Node) {request request' : Nat} {part part' : PartId}
    (h : request = request' → part ≠ part') (code : ResultCode) :
    (n.report request part code).codeOf? request' part' = n.codeOf? request' part' := by
  have hne : ¬(request' = request ∧ part' = part) := fun ⟨hr, hp⟩ => h hr.symm hp.symm
  simp only [codeOf?_report, if_neg hne]
  rfl

theorem report_quiet (n : Node) (request : Nat) (part : PartId) (code : ResultCode) :
    (n.quiet.report request part code).quiet = (n.report request part code).quiet := by
  rw [quiet_report, quiet_report]
  rfl

def outcomeCode : Except StoreCode Unit → ResultCode
  | .ok () => .succeeded
  | .error code => .store code

theorem outcomeCode_eq_succeeded_iff {result : Except StoreCode Unit} :
    outcomeCode result = .succeeded ↔ result = .ok () := by
  cases result <;> simp [outcomeCode]

theorem releaseHold_quiet (n : Node) (hold : Option Hold) :
    n.quiet.releaseHold hold = (n.releaseHold hold).quiet := by
  cases hold <;> rfl

theorem quiet_complete_outside (n : Node) (name : String) (result : Except StoreCode Unit)
    (rejected : Option BatchError) :
    (n.complete ⟨.outside name, result, rejected⟩).quiet = n.quiet := by
  rw [complete]
  cases rejected <;> rfl

/-- The end of the write of a partition gives up what the write keeps and is reported. -/
theorem quiet_complete_partition (n : Node) (request : Nat) (part : PartId) (edges : Nat)
    (hold : Option Hold) (result : Except StoreCode Unit) (rejected : Option BatchError) :
    (n.complete ⟨.partition request part edges hold, result, rejected⟩).quiet
      = ((n.releaseHold hold).report request part (outcomeCode result)).quiet := by
  rw [← report_quiet (n.releaseHold hold), complete]
  cases result with
  | ok u => cases rejected <;> cases hold <;> exact (report_quiet ..).symm
  | error code => cases rejected <;> cases hold <;> exact (report_quiet ..).symm

theorem store_complete (n : Node) (c : Completion Submitter) : (n.complete c).store = n.store := by
  obtain ⟨token, result, rejected⟩ := c
  cases token with
  | outside name => exact congrArg (·.store) (n.quiet_complete_outside name result rejected)
  | partition request part edges hold =>
    refine (congrArg (·.store)
      (n.quiet_complete_partition request part edges hold result rejected)).trans ?_
    refine (store_report ..).trans ?_
    cases hold <;> rfl

theorem store_completeAll (n : Node) (cs : List (Completion Submitter)) :
    (n.completeAll cs).store = n.store := by
  induction cs generalizing n with
  | nil => rfl
  | cons c cs ih => exact (ih (n.complete c)).trans (n.store_complete c)

theorem sequencer_complete (n : Node) (c : Completion Submitter) :
    (n.complete c).sequencer = n.sequencer := by
  obtain ⟨token, result, rejected⟩ := c
  cases token with
  | outside name => exact congrArg (·.sequencer) (n.quiet_complete_outside name result rejected)
  | partition request part edges hold =>
    refine (congrArg (·.sequencer)
      (n.quiet_complete_partition request part edges hold result rejected)).trans ?_
    refine (sequencer_report ..).trans ?_
    cases hold <;> rfl

theorem sequencer_completeAll (n : Node) (cs : List (Completion Submitter)) :
    (n.completeAll cs).sequencer = n.sequencer := by
  induction cs generalizing n with
  | nil => rfl
  | cons c cs ih => exact (ih (n.complete c)).trans (n.sequencer_complete c)

/-- Nothing is drawn for a write that was planned. -/
theorem sequencer_submitPart (n : Node) (place : Place) (change : Change) (request edges : Nat)
    (hold : Option Hold) :
    (n.submitPart place change request edges hold).sequencer = n.sequencer := by
  rw [submitPart]
  by_cases hlost : n.losesNext = true
  · rw [if_pos hlost]
    cases hold <;> rfl
  · rw [if_neg hlost]
    exact sequencer_completeAll ..

theorem complete_quiet (n : Node) (c : Completion Submitter) :
    (n.quiet.complete c).quiet = (n.complete c).quiet := by
  obtain ⟨token, result, rejected⟩ := c
  cases token with
  | outside name => rw [quiet_complete_outside, quiet_complete_outside]; rfl
  | partition request part edges hold =>
    rw [quiet_complete_partition, quiet_complete_partition, releaseHold_quiet, report_quiet]

theorem completeAll_quiet (n : Node) (cs : List (Completion Submitter)) :
    (n.quiet.completeAll cs).quiet = (n.completeAll cs).quiet := by
  induction cs generalizing n with
  | nil => rfl
  | cons c cs ih =>
    show ((n.quiet.complete c).completeAll cs).quiet = ((n.complete c).completeAll cs).quiet
    rw [← ih (n.quiet.complete c), complete_quiet, ih]

/-- Completions change what is claimed, the count of writes in flight and the requests. -/
theorem quiet_completeAll (n : Node) (cs : List (Completion Submitter)) :
    ∃ locks inflight requests, (n.completeAll cs).quiet
      = { n.quiet with locks := locks, inflight := inflight, requests := requests } := by
  induction cs generalizing n with
  | nil => exact ⟨n.locks, n.inflight, n.requests, rfl⟩
  | cons c cs ih =>
    obtain ⟨locks, inflight, requests, hrest⟩ := ih (n.complete c)
    refine ⟨locks, inflight, requests, hrest.trans ?_⟩
    obtain ⟨token, result, rejected⟩ := c
    cases token with
    | outside name => rw [quiet_complete_outside]
    | partition request part edges hold =>
      rw [quiet_complete_partition, quiet_report]
      cases hold <;> rfl

/-- A write of somebody else concerns the store alone. -/
theorem quiet_submit (n : Node) (name : String) (place : Place) (change : Change) :
    (n.submit name place change).quiet
      = { n with store := (n.store.submit ⟨place, change, .outside name⟩).1 }.quiet := by
  obtain ⟨w, hw⟩ : ∃ w : Write Submitter, w = ⟨place, change, .outside name⟩ := ⟨_, rfl⟩
  have hsubmit : n.submit name place change
      = Node.completeAll { n with store := (n.store.submit w).1 } (n.store.submit w).2 := by
    rw [hw]
    rfl
  rw [hsubmit, ← hw]
  cases hheld : n.store.held with
  | none =>
    rw [Store.submit_of_not_held hheld]
    have htoken := n.store.counted.apply_token w
    generalize n.store.counted.apply w = p at htoken ⊢
    obtain ⟨s, token, result, rejected⟩ := p
    obtain rfl : token = .outside name := htoken.trans (by rw [hw])
    exact quiet_complete_outside ..
  | some queue =>
    rw [Store.submit_of_held hheld]
    rfl

theorem submitPart_quiet (n : Node) (place : Place) (change : Change) (request edges : Nat)
    (hold : Option Hold) :
    (n.quiet.submitPart place change request edges hold).quiet
      = (n.submitPart place change request edges hold).quiet := by
  rw [submitPart, submitPart]
  by_cases hlost : n.losesNext = true
  · rw [if_pos hlost, if_pos (show n.quiet.losesNext = true from hlost), ← releaseHold_quiet,
      ← releaseHold_quiet]
    rfl
  · rw [if_neg hlost, if_neg (show ¬n.quiet.losesNext = true from hlost)]
    let w : Write Submitter := ⟨place, change, .partition request place.part edges hold⟩
    exact completeAll_quiet { n with store := (n.store.submit w).1 } (n.store.submit w).2

/-! ### Changes that commute -/

/-- What is noted of the outcome of the write of a partition. -/
def notesOf (part : PartId) (edges : Nat) (hold : Option Hold) :
    Except StoreCode Unit → List Event
  | .ok () =>
    .signal (.edgesDeleted (UInt64.ofNat edges)) ::
      (hold.toList.map fun h => .signal (.entriesRemoved (UInt64.ofNat h.entries)))
  | .error code => [.log (.storeFailed part (.store code))]

/-- A change of a node that has nothing to do with what is noted and with the requests. -/
structure Aside (f : Node → Node) : Prop where
  emit : ∀ n e, f (n.emit e) = (f n).emit e
  setRequests : ∀ n requests, f { n with requests := requests } = { f n with requests := requests }
  requests : ∀ n, (f n).requests = n.requests
  now : ∀ n, (f n).now = n.now

theorem aside_store (s : Store Submitter) : Aside fun n => { n with store := s } :=
  ⟨fun _ _ => rfl, fun _ _ => rfl, fun _ => rfl, fun _ => rfl⟩

theorem aside_spend (s : Store Submitter) (q : Sequencer) :
    Aside fun n => { n with store := s, sequencer := q } :=
  ⟨fun _ _ => rfl, fun _ _ => rfl, fun _ => rfl, fun _ => rfl⟩

theorem aside_untrack : Aside untrack :=
  ⟨fun _ _ => rfl, fun _ _ => rfl, fun _ => rfl, fun _ => rfl⟩

theorem Aside.emitAll {f : Node → Node} (h : Aside f) (n : Node) (es : List Event) :
    f (n.emitAll es) = (f n).emitAll es := by
  induction es generalizing n with
  | nil => rfl
  | cons e es ih =>
    show f ((n.emit e).emitAll es) = ((f n).emit e).emitAll es
    rw [ih, h.emit]

theorem Aside.report {f : Node → Node} (h : Aside f) (n : Node) (request : Nat) (part : PartId)
    (code : ResultCode) : f (n.report request part code) = (f n).report request part code := by
  rw [Node.report, Node.report, h.requests]
  cases n.requests[request]? with
  | none => rfl
  | some c =>
    have hreport : c.report (f n).now part code = c.report n.now part code := by rw [h.now]
    simp only [hreport]
    rw [h.emitAll]
    exact congrArg (Node.emitAll · _) (h.setRequests ..)

/-- The end of the write of a partition, step by step. -/
theorem complete_partition (n : Node) (request : Nat) (part : PartId) (edges : Nat)
    (hold : Option Hold) (result : Except StoreCode Unit) (rejected : Option BatchError) :
    n.complete ⟨.partition request part edges hold, result, rejected⟩
      = (((n.emitAll (rejected.toList.map fun cause => .log (.batchRejected cause))).releaseHold
          hold).emitAll (notesOf part edges hold result)).report request part
        (outcomeCode result) := by
  cases rejected <;> cases hold <;> cases result <;> rfl

/-- The end of a write has nothing to do with a change aside from what writes keep. -/
theorem Aside.complete {f : Node → Node} (h : Aside f)
    (hrelease : ∀ n hold, f (n.releaseHold hold) = (f n).releaseHold hold) (n : Node)
    (c : Completion Submitter) : f (n.complete c) = (f n).complete c := by
  obtain ⟨token, result, rejected⟩ := c
  cases token with
  | outside name =>
    cases rejected with
    | none => exact h.emit n (.written name result)
    | some cause =>
      have hrejected := h.emit n (.log (.batchRejected cause))
      have hwritten := h.emit (n.emit (.log (.batchRejected cause))) (.written name result)
      exact hwritten.trans (by rw [hrejected]; rfl)
  | partition request part edges hold =>
    rw [complete_partition, complete_partition, h.report, h.emitAll, hrelease, h.emitAll]

/-- The end of a write has nothing to do with what is stored. -/
theorem complete_with_store (n : Node) (s : Store Submitter) (c : Completion Submitter) :
    { n with store := s }.complete c = { n.complete c with store := s } :=
  ((aside_store s).complete (fun _ hold => by cases hold <;> rfl) n c).symm

/-! ### The end of a pause -/

theorem store_finish (n : Node) (w : Write Submitter) :
    (n.finish w).store = (n.store.apply w).1 := store_complete ..

/-- The store may apply all writes first, and the submitters may be told afterwards. -/
theorem finishAll_eq (n : Node) (ws : List (Write Submitter)) :
    ws.foldl finish n = { n with
      store := (n.store.applyAll ws).1 }.completeAll (n.store.applyAll ws).2 := by
  induction ws generalizing n with
  | nil => rfl
  | cons w ws ih =>
    have hfirst : ∀ s : Store Submitter, { n.finish w with store := s }
        = { n with store := s }.complete (n.store.apply w).2 :=
      fun s => (complete_with_store { n with store := (n.store.apply w).1 } s _).symm
    rw [List.foldl_cons, ih, store_finish, hfirst]
    rfl

theorem resume_eq (n : Node) : n.resume = (n.store.heldWrites.length,
    { n with store := n.store.resume.1 }.completeAll n.store.resume.2) := by
  rw [resume, finishAll_eq]
  rfl

theorem resume_snd (n : Node) :
    n.resume.2 = { n with store := n.store.resume.1 }.completeAll n.store.resume.2 :=
  congrArg Prod.snd n.resume_eq

/-- Apart from the store, the end of a pause changes what completions change. -/
theorem quiet_resume (n : Node) : ∃ locks inflight requests, n.resume.2.quiet
    = { n.quiet with
        store := n.store.resume.1
        locks := locks
        inflight := inflight
        requests := requests } := by
  rw [resume_snd]
  exact quiet_completeAll ..

end Node

end EdgeDeletion
