/-
What happens within an action, moment by moment.

An action of a driver is a list of strokes, each of which changes a session in one
respect: an event is noted, a write is counted as in flight, edges are claimed, the store
applies a write, a partition reports.  Strokes that belong to a partition of a request
name its `Slot`.  The moments of a run are those between two strokes.

* `strikeAll_strokes` — the strokes of an action, one after the other, are the action;
* `strikeAll_timeline` — those of a run are the run.

The strokes at the end of a pause come write by write: each write is applied and its
submitter is told before the next one is applied.
-/
import EdgeDeletion.Proofs.Requests
import EdgeDeletion.Proofs.Session

namespace EdgeDeletion

universe u

/-- A partition of a request, by the number of the request. -/
structure Slot where
  request : Nat
  part : PartId
deriving DecidableEq

/-- The slot on whose behalf a write is submitted. -/
def Submitter.slot? : Submitter → Option Slot
  | .outside _ => none
  | .partition request part _ _ => some ⟨request, part⟩

/-- A change of a session in one respect. -/
inductive Stroke where
  /-- An event goes to the trace. -/
  | note (e : Event)
  /-- An index state is looked up for a slot, which goes to the trace as well. -/
  | look (slot : Slot) (e : Event)
  /-- The write of a slot is counted as in flight from now on. -/
  | track (slot : Slot)
  | untrack (slot : Slot)
  | claim (slot : Slot) (edges : List EdgeId)
  | release (slot : Slot) (edges : List EdgeId)
  /-- A plan has used up failures of scans and has drawn numbers. -/
  | spend (store : Store Submitter) (sequencer : Sequencer)
  /-- The write of a slot gets lost on its way to the store. -/
  | lose (slot : Slot)
  /-- The store gets a write, which it holds back if it is paused. -/
  | submit (w : Write Submitter)
  /-- The store applies a write or fails it. -/
  | apply (w : Write Submitter)
  /-- A slot reports without having submitted a write. -/
  | refuse (slot : Slot) (code : ResultCode)
  /-- A slot reports the outcome of its write. -/
  | report (slot : Slot) (code : ResultCode)
  /-- A request arrives and gets its number. -/
  | arrive (request : Nat) (r : DeleteRequest)
  /-- The store holds back no writes from now on. -/
  | unhold
  /-- The driver does something that concerns no request. -/
  | drive (a : Action)

/-- The store when it has got a write and not yet applied it. -/
def Store.received {τ : Type u} (s : Store τ) (w : Write τ) : Store τ :=
  { s.counted with held := s.held.map (· ++ [w]) }

namespace Session

/-- Does one stroke. -/
def strike (s : Session) : Stroke → Session
  | .note e | .look _ e => { s with node := s.node.emit e }
  | .track _ => { s with node := s.node.track }
  | .untrack _ => { s with node := s.node.untrack }
  | .claim _ edges => { s with node := { s.node with locks := s.node.locks.hold edges } }
  | .release _ edges => { s with node := s.node.release edges }
  | .spend store q => { s with node := { s.node with store := store, sequencer := q } }
  | .lose _ => { s with node := { s.node with losesNext := false } }
  | .submit w => { s with node := { s.node with store := s.node.store.received w } }
  | .apply w => { s with node := { s.node with store := (s.node.store.apply w).1 } }
  | .refuse slot code | .report slot code =>
    { s with node := s.node.report slot.request slot.part code }
  | .arrive _ r =>
    let (c, events) := Collector.start r.parts.size s.node.now
    { s with
      node := { s.node with requests := s.node.requests ++ [c] }.emitAll events
      asked := s.asked ++ [r] }
  | .unhold => { s with node := { s.node with store := { s.node.store with held := none } } }
  | .drive a => s.act a

/-- Does one stroke after the other. -/
def strikeAll (s : Session) (strokes : List Stroke) : Session := strokes.foldl strike s

@[simp] theorem strikeAll_nil (s : Session) : s.strikeAll [] = s := rfl

@[simp] theorem strikeAll_cons (s : Session) (σ : Stroke) (strokes : List Stroke) :
    s.strikeAll (σ :: strokes) = (s.strike σ).strikeAll strokes := rfl

theorem strikeAll_append (s : Session) (strokes strokes' : List Stroke) :
    s.strikeAll (strokes ++ strokes') = (s.strikeAll strokes).strikeAll strokes' :=
  List.foldl_append

end Session

/-! ### The strokes of writes -/

namespace Stroke

/-- What an index-aware write keeps is given up. -/
def ofRelease (slot : Slot) : Option Hold → List Stroke
  | none => []
  | some hold => [.release slot hold.claimed, .untrack slot]

/-- The submitter of a write is told about its outcome. -/
def ofCompletion (c : Completion Submitter) : List Stroke :=
  (c.rejected.toList.map fun cause => .note (.log (.batchRejected cause))) ++
    match c.token with
    | .outside name => [.note (.written name c.result)]
    | .partition request part edges hold =>
      ofRelease ⟨request, part⟩ hold ++ (Node.notesOf part edges hold c.result).map .note ++
        [.report ⟨request, part⟩ (Node.outcomeCode c.result)]

/-- Writes are applied, and their submitters told, one after the other. -/
def ofWrites (s : Store Submitter) : List (Write Submitter) → List Stroke
  | [] => []
  | w :: ws => .apply w :: ofCompletion (s.apply w).2 ++ ofWrites (s.apply w).1 ws

/-- A write is submitted, and unless the store is paused it is applied. -/
def ofSubmit (s : Store Submitter) (w : Write Submitter) : List Stroke :=
  .submit w :: if s.held.isSome then [] else ofWrites s.counted [w]

/-- A look at an index state belongs to the slot, and whatever else is noted in a plan does not. -/
def ofPlanned (slot : Slot) (e : Event) : Stroke :=
  match e with
  | .call (.indexState ..) => .look slot e
  | _ => .note e

end Stroke

/-! ### The strokes of a turn -/

def Turn.slot (t : Turn) : Slot := ⟨t.request, t.place.part⟩

namespace Node

/-- The write of a turn is submitted or gets lost. -/
def strokesOfWrite (n : Node) (t : Turn) (change : Change) (edges : Nat) (hold : Option Hold) :
    List Stroke :=
  if n.losesNext then .lose t.slot :: Stroke.ofRelease t.slot hold
  else Stroke.ofSubmit n.store (t.write change edges hold)

/-- A turn in a space without indexes. -/
def strokesOfPlain (n : Node) (t : Turn) : List Stroke :=
  match t.edges.findSome? (Scene.widthError? t.vidLen) with
  | some e => [.note (.log (.invalidWidth t.place e)), .refuse t.slot e.code]
  | none =>
    let keys := t.edges.map (Key.record t.vidLen t.place.part)
    .note (.call (.remove t.place keys n.locks.size n.inflight)) ::
      n.strokesOfWrite t (.remove keys) keys.length none

/-- A turn in a space with indexes, after its plan was made.  A turn that is refused reports while
it is still counted. -/
def strokesOfPlanned (n : Node) (t : Turn) : List Stroke :=
  match (n.planOf t).error with
  | some e => [.note (.log (.batchFailed t.place e)), .refuse t.slot e.code, .untrack t.slot]
  | none =>
    match n.locks.claim t.ids with
    | .error edge =>
      let shown := if n.options.logConflictKeys then some edge else none
      [.note (.signal .lockConflict), .note (.log (.lockConflict t.place.part shown)),
        .refuse t.slot (DeleteError.conflict edge).code, .untrack t.slot]
    | .ok (claimed, locks) =>
      let deferred := (n.planOf t).steps.countP Step.isDeferral
      let payload := Batch.encode (n.opsOf t).1
      .claim t.slot claimed :: .note (.signal (.removalsDeferred (UInt64.ofNat deferred))) ::
        .note (.call (.batch t.place payload locks.size (n.inflight + 1))) ::
        (n.planned t).strokesOfWrite t (.batch payload) ((n.planOf t).steps.countP Step.isRecord)
          (some ⟨claimed, (n.planOf t).steps.countP Step.isEntry⟩)

/-- A turn in a space with indexes is counted as in flight before its plan is made. -/
def strokesOfIndexed (n : Node) (t : Turn) : List Stroke :=
  .track t.slot :: ((n.planOf t).trace.map (Stroke.ofPlanned t.slot) ++
    .spend (n.planned t).store (n.planned t).sequencer :: n.strokesOfPlanned t)

def strokesOf (n : Node) (t : Turn) : List Stroke :=
  if t.indexes.isEmpty then n.strokesOfPlain t else n.strokesOfIndexed t

def strokesOfAll (n : Node) : List Turn → List Stroke
  | [] => []
  | t :: ts => n.strokesOf t ++ (n.work t).strokesOfAll ts

/-! ### The strokes of a request -/

/-- The strokes of a request after its space was looked up. -/
def strokesOfParts (n : Node) (r : DeleteRequest) : List Stroke :=
  match n.turns r with
  | .error e => r.parts.keys.map fun part => .refuse ⟨n.requests.length, part⟩ e.code
  | .ok ts => (n.opened r).strokesOfAll ts

def strokesOfArrival (n : Node) (r : DeleteRequest) : List Stroke :=
  .note (.signal .call) :: .arrive n.requests.length r :: (n.preface r).map .note

def strokesOfRequest (n : Node) (r : DeleteRequest) : List Stroke :=
  n.strokesOfArrival r ++ n.strokesOfParts r

def strokesOfResume (n : Node) : List Stroke :=
  .unhold :: Stroke.ofWrites { n.store with held := none } n.store.heldWrites

end Node

namespace Session

/-- The strokes of an action. -/
def strokes (s : Session) : Action → List Stroke
  | .delete r => s.node.strokesOfRequest r
  | .deleteDeferred r =>
    if s.node.store.held.isSome then s.node.strokesOfRequest r
    else
      .drive .pause :: (s.node.pause.strokesOfRequest r ++
        (s.node.pause.process r).2.strokesOfResume)
  | .resume => s.node.strokesOfResume
  | .submit name place change => Stroke.ofSubmit s.node.store ⟨place, change, .outside name⟩
  | a => [.drive a]

/-- The strokes of a run. -/
def timeline (s : Session) : List Action → List Stroke
  | [] => []
  | a :: actions => s.strokes a ++ (s.act a).timeline actions

theorem timeline_append (s : Session) (actions actions' : List Action) :
    s.timeline (actions ++ actions') = s.timeline actions ++ (s.run actions).timeline actions' := by
  induction actions generalizing s with
  | nil => rfl
  | cons a actions ih =>
    show s.strokes a ++ (s.act a).timeline (actions ++ actions') = _
    rw [ih, ← List.append_assoc]
    rfl

end Session

/-! ### Strokes of writes and turns -/

namespace Session

theorem strikeAll_notes (s : Session) (es : List Event) :
    s.strikeAll (es.map .note) = { s with node := s.node.emitAll es } := by
  induction es generalizing s with
  | nil => rfl
  | cons e es ih => exact ih (s.strike (.note e))

theorem strikeAll_ofCompletion (s : Session) (c : Completion Submitter) :
    s.strikeAll (Stroke.ofCompletion c) = { s with node := s.node.complete c } := by
  obtain ⟨token, result, rejected⟩ := c
  cases token with
  | outside name => cases rejected <;> rfl
  | partition request part edges hold =>
    cases rejected <;> cases hold <;> cases result <;> rfl

theorem strikeAll_ofWrites (s : Session) (ws : List (Write Submitter)) :
    s.strikeAll (Stroke.ofWrites s.node.store ws)
      = { s with node := ws.foldl Node.finish s.node } := by
  induction ws generalizing s with
  | nil => rfl
  | cons w ws ih =>
    have hfirst : s.strikeAll (.apply w :: Stroke.ofCompletion (s.node.store.apply w).2)
        = { s with node := s.node.finish w } := by
      rw [strikeAll_cons, strikeAll_ofCompletion]
      rfl
    have hrest := ih { s with node := s.node.finish w }
    rw [Node.store_finish] at hrest
    rw [Stroke.ofWrites, strikeAll_append, hfirst]
    exact hrest

theorem strikeAll_ofSubmit (s : Session) (w : Write Submitter) :
    s.strikeAll (Stroke.ofSubmit s.node.store w)
      = { s with node := { s.node with
          store := (s.node.store.submit w).1 }.completeAll (s.node.store.submit w).2 } := by
  rw [Stroke.ofSubmit, strikeAll_cons]
  cases hheld : s.node.store.held with
  | some queue =>
    rw [Store.submit_of_held hheld]
    simp only [Option.isSome_some, if_true, strikeAll_nil, strike, Store.received, hheld]
    rfl
  | none =>
    have hreceived : s.node.store.received w = s.node.store.counted := by
      rw [Store.received, hheld]
      show { s.node.store.counted with held := none } = _
      rw [← hheld]
      rfl
    have hwrites := strikeAll_ofWrites
      { s with node := { s.node with store := s.node.store.counted } } [w]
    rw [Store.submit_of_not_held hheld]
    simp only [Option.isSome_none, Bool.false_eq_true, if_false, strike, hreceived]
    exact hwrites

theorem strikeAll_ofRelease (s : Session) (slot : Slot) (hold : Option Hold) :
    s.strikeAll (Stroke.ofRelease slot hold) = { s with node := s.node.releaseHold hold } := by
  cases hold <;> rfl

theorem strikeAll_strokesOfWrite (s : Session) (t : Turn) (change : Change) (edges : Nat)
    (hold : Option Hold) :
    s.strikeAll (s.node.strokesOfWrite t change edges hold)
      = { s with node := s.node.submitPart t.place change t.request edges hold } := by
  rw [Node.strokesOfWrite, Node.submitPart]
  by_cases hlost : s.node.losesNext = true
  · rw [if_pos hlost, if_pos hlost]
    exact strikeAll_ofRelease ..
  · rw [if_neg hlost, if_neg hlost]
    exact strikeAll_ofSubmit ..

theorem strikeAll_strokesOfPlain (s : Session) (t : Turn) :
    s.strikeAll (s.node.strokesOfPlain t)
      = { s with node := s.node.deletePlain t.request t.place t.vidLen t.edges } := by
  rw [Node.strokesOfPlain, Node.deletePlain]
  cases t.edges.findSome? (Scene.widthError? t.vidLen) with
  | some e => rfl
  | none => exact strikeAll_strokesOfWrite (s.strike (.note _)) t _ _ _

theorem strikeAll_ofPlanned (s : Session) (slot : Slot) (es : List Event) :
    s.strikeAll (es.map (Stroke.ofPlanned slot)) = { s with node := s.node.emitAll es } := by
  induction es generalizing s with
  | nil => rfl
  | cons e es ih =>
    have hstrike : s.strike (Stroke.ofPlanned slot e) = { s with node := s.node.emit e } := by
      cases e with
      | call c => cases c <;> rfl
      | _ => rfl
    rw [List.map_cons, strikeAll_cons, hstrike, ih]
    rfl

theorem strokesOfWrite_congr {n m : Node} (hstore : m.store = n.store)
    (hlost : m.losesNext = n.losesNext) (t : Turn) (change : Change) (edges : Nat)
    (hold : Option Hold) :
    m.strokesOfWrite t change edges hold = n.strokesOfWrite t change edges hold := by
  rw [Node.strokesOfWrite, Node.strokesOfWrite, hstore, hlost]

/-- A turn in a space with indexes, from where its plan was made. -/
theorem strikeAll_strokesOfPlanned (s : Session) {n : Node} {t : Turn}
    (hindexes : t.indexes.isEmpty = false)
    (hnode : s.node = { n with
      store := ((n.scene t).plan n.store t.edges).1
      sequencer := (n.opsOf t).2 }.track.emitAll (n.planOf t).trace) :
    s.strikeAll (n.strokesOfPlanned t)
      = { s with node := n.deleteIndexed t.request t.place t.vidLen t.indexes t.edges } := by
  have hquiet : s.node.quiet = { n with
      store := ((n.scene t).plan n.store t.edges).1
      sequencer := (n.opsOf t).2 }.track.quiet := by rw [hnode, Node.quiet_emitAll]
  have hlocks : s.node.locks = n.locks := (congrArg Node.locks hquiet).trans rfl
  have hoptions : s.node.options = n.options := (congrArg Node.options hquiet).trans rfl
  have hinflight : s.node.inflight = n.inflight + 1 := (congrArg Node.inflight hquiet).trans rfl
  have hlost : s.node.losesNext = (n.planned t).losesNext := by
    rw [n.planned_losesNext t]
    exact (congrArg Node.losesNext hquiet).trans rfl
  have hstore : s.node.store = (n.planned t).store := by
    rw [Node.planned, hindexes]
    exact (congrArg Node.store hquiet).trans rfl
  rw [n.deleteIndexed_of_planned t hnode, Node.strokesOfPlanned]
  cases herror : (n.planOf t).error with
  | some e =>
    simp only [strikeAll_cons, strikeAll_nil, strike, Turn.slot]
  | none =>
    have hshown : ∀ e, (s.node.emit e).options.logConflictKeys = n.options.logConflictKeys :=
      fun _ => congrArg (·.logConflictKeys) hoptions
    simp only [Node.claim, hlocks, hshown, ← hinflight]
    cases hclaim : n.locks.claim t.ids with
    | error edge =>
      simp only [Except.map, strikeAll_cons, strikeAll_nil, strike, Turn.slot]
    | ok claimed =>
      obtain ⟨claimed, locks⟩ := claimed
      obtain ⟨-, rfl, -⟩ := LockTable.claim_of_ok hclaim
      simp only [Except.map, strikeAll_cons, strike, hlocks]
      rw [← strokesOfWrite_congr hstore hlost]
      exact strikeAll_strokesOfWrite ⟨_, s.asked, s.guards, s.tracked⟩ t _ _ _

theorem strikeAll_strokesOf (s : Session) (t : Turn) :
    s.strikeAll (s.node.strokesOf t) = { s with node := s.node.work t } := by
  rw [Node.strokesOf, Node.work]
  cases hindexes : t.indexes.isEmpty with
  | true => exact strikeAll_strokesOfPlain s t
  | false =>
    have hplanned : s.node.planned t = { s.node with
        store := ((s.node.scene t).plan s.node.store t.edges).1
        sequencer := (s.node.opsOf t).2 } := by
      rw [Node.planned, hindexes]
      rfl
    have hspend := Node.aside_spend (s.node.planned t).store (s.node.planned t).sequencer
    simp only [Bool.false_eq_true, if_false, Node.strokesOfIndexed]
    rw [strikeAll_cons, strikeAll_append, strikeAll_ofPlanned, strikeAll_cons]
    refine strikeAll_strokesOfPlanned _ hindexes ?_
    show { s.node.track.emitAll (s.node.planOf t).trace with
      store := (s.node.planned t).store, sequencer := (s.node.planned t).sequencer } = _
    rw [hspend.emitAll, hplanned]
    rfl

theorem strikeAll_strokesOfAll (s : Session) (ts : List Turn) :
    s.strikeAll (s.node.strokesOfAll ts) = { s with node := s.node.workAll ts } := by
  induction ts generalizing s with
  | nil => rfl
  | cons t ts ih =>
    rw [Node.strokesOfAll, strikeAll_append, strikeAll_strokesOf]
    exact ih { s with node := s.node.work t }

end Session

/-! ### Strokes of actions -/

namespace Session

theorem strikeAll_refusals (s : Session) (request : Nat) (parts : List PartId)
    (code : ResultCode) :
    s.strikeAll (parts.map fun part => .refuse ⟨request, part⟩ code)
      = { s with node := s.node.failAll request parts code } := by
  induction parts generalizing s with
  | nil => rfl
  | cons part parts ih => exact ih (s.strike (.refuse ⟨request, part⟩ code))

theorem strikeAll_strokesOfArrival (s : Session) (r : DeleteRequest) :
    s.strikeAll (s.node.strokesOfArrival r)
      = { s with node := s.node.opened r, asked := s.asked ++ [r] } := strikeAll_notes ..

theorem strikeAll_strokesOfRequest (s : Session) (r : DeleteRequest) :
    s.strikeAll (s.node.strokesOfRequest r)
      = { s with node := (s.node.process r).2, asked := s.asked ++ [r] } := by
  rw [Node.strokesOfRequest, strikeAll_append, strikeAll_strokesOfArrival, Node.process_eq,
    Node.strokesOfParts]
  cases s.node.turns r with
  | error e => exact strikeAll_refusals ..
  | ok ts => exact strikeAll_strokesOfAll { s with node := s.node.opened r, asked := _ } ts

theorem strikeAll_strokesOfResume (s : Session) :
    s.strikeAll s.node.strokesOfResume = { s with node := s.node.resume.2 } := by
  rw [Node.strokesOfResume, strikeAll_cons]
  exact strikeAll_ofWrites (s.strike .unhold) s.node.store.heldWrites

/-- The strokes of an action, one after the other, are the action. -/
theorem strikeAll_strokes (s : Session) (a : Action) : s.strikeAll (s.strokes a) = s.act a := by
  cases a with
  | delete r => exact strikeAll_strokesOfRequest s r
  | deleteDeferred r =>
    rw [strokes, act, Node.processDeferred]
    by_cases hheld : s.node.store.held.isSome = true
    · rw [if_pos hheld, if_pos hheld]
      exact strikeAll_strokesOfRequest s r
    · rw [if_neg hheld, if_neg hheld, strikeAll_cons, strikeAll_append]
      have hpaused : s.strike (.drive .pause) = { s with node := s.node.pause } := rfl
      rw [hpaused, strikeAll_strokesOfRequest { s with node := s.node.pause } r]
      exact strikeAll_strokesOfResume
        { s with node := (s.node.pause.process r).2, asked := s.asked ++ [r] }
  | resume => exact strikeAll_strokesOfResume s
  | submit name place change => exact strikeAll_ofSubmit s ⟨place, change, .outside name⟩
  | _ => rfl

/-- The strokes of a run, one after the other, are the run. -/
theorem strikeAll_timeline (s : Session) (actions : List Action) :
    s.strikeAll (s.timeline actions) = s.run actions := by
  induction actions generalizing s with
  | nil => rfl
  | cons a actions ih =>
    rw [timeline, strikeAll_append, strikeAll_strokes]
    exact ih (s.act a)

end Session

end EdgeDeletion
