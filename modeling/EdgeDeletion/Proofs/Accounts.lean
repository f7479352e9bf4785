/-
The accounts of claims and of writes in flight.

The edges that are locked are those that the index-aware writes under way have claimed
and those that the driver of the node holds itself, and no edge is claimed twice; the
count of writes in flight is the number of these writes and of whatever the driver
counts with them.  Everything that a driver can do to a node keeps the accounts in
balance:

* `balanced_process`, `balanced_resume` — requests, and the end of a pause;
* `accounts_balance` — every run of a `Session`, a node with its driver.
-/
import EdgeDeletion.Proofs.Frame
import EdgeDeletion.Proofs.Session

namespace EdgeDeletion

/-- What the submitter of a write keeps until it is completed. -/
def Submitter.hold? : Submitter → Option Hold
  | .outside _ => none
  | .partition _ _ _ hold => hold

namespace Node

/-- What the writes held back keep, in order of submission. -/
def holds (n : Node) : List Hold := n.store.heldWrites.filterMap fun w => w.token.hold?

/-- Claims and count come from writes that keep something, from claims of the driver, and from
what the driver counts. -/
structure Accounts (n : Node) (holds : List Hold) (guards : List (List EdgeId)) (tracked : Nat) :
    Prop where
  locks : n.locks.IsUnion (holds.map (·.claimed) ++ guards)
  inflight : n.inflight = holds.length + tracked

section

variable {n m : Node} {holds : List Hold} {guards : List (List EdgeId)} {tracked : Nat}

/-- Only claims and count matter. -/
theorem Accounts.congr (h : n.Accounts holds guards tracked) (hlocks : m.locks = n.locks)
    (hinflight : m.inflight = n.inflight) : m.Accounts holds guards tracked :=
  ⟨hlocks ▸ h.locks, hinflight.trans h.inflight⟩

theorem Accounts.of_quiet (h : n.Accounts holds guards tracked) (hm : m.quiet = n.quiet) :
    m.Accounts holds guards tracked :=
  h.congr (congrArg (·.locks) hm) (congrArg (·.inflight) hm)

theorem locks_report (n : Node) (request : Nat) (part : PartId) (code : ResultCode) :
    (n.report request part code).locks = n.locks := by
  show (n.report request part code).quiet.locks = _
  rw [quiet_report]
  rfl

theorem inflight_report (n : Node) (request : Nat) (part : PartId) (code : ResultCode) :
    (n.report request part code).inflight = n.inflight := by
  show (n.report request part code).quiet.inflight = _
  rw [quiet_report]
  rfl

/-! ### Grants and completions -/

theorem accounts_grant (h : n.Accounts holds guards tracked) {hold : Option Hold}
    (hfree : ∀ held, hold = some held → ∀ id ∈ held.claimed, n.locks.isLocked id = false) :
    (n.grant hold).Accounts (holds ++ hold.toList) guards tracked := by
  cases hold with
  | none =>
    show n.Accounts (holds ++ []) guards tracked
    rwa [List.append_nil]
  | some held =>
    have hlocks := h.locks.hold (hfree held rfl)
    refine ⟨by simpa [grant] using hlocks, ?_⟩
    have hcount := h.inflight
    show n.inflight + 1 = _
    simp only [Option.toList, List.length_append, List.length_singleton]
    omega

theorem accounts_releaseHold {hold : Option Hold}
    (h : n.Accounts (hold.toList ++ holds) guards tracked) :
    (n.releaseHold hold).Accounts holds guards tracked := by
  cases hold with
  | none => exact h
  | some held =>
    have hlocks : n.locks.IsUnion ([] ++ held.claimed :: (holds.map (·.claimed) ++ guards)) :=
      h.locks
    refine ⟨hlocks.release, ?_⟩
    have hcount := h.inflight
    show n.inflight - 1 = _
    simp only [Option.toList, List.singleton_append, List.length_cons] at hcount
    omega

theorem accounts_complete {c : Completion Submitter}
    (h : n.Accounts (c.token.hold?.toList ++ holds) guards tracked) :
    (n.complete c).Accounts holds guards tracked := by
  obtain ⟨token, result, rejected⟩ := c
  cases token with
  | outside name => exact h.of_quiet (quiet_complete_outside ..)
  | partition request part edges hold =>
    refine Accounts.of_quiet ?_ (quiet_complete_partition ..)
    exact (accounts_releaseHold h).congr (locks_report ..) (inflight_report ..)

/-- Each completion gives up what its own write keeps. -/
theorem accounts_completeAll {cs : List (Completion Submitter)}
    (h : n.Accounts (cs.filterMap (·.token.hold?) ++ holds) guards tracked) :
    (n.completeAll cs).Accounts holds guards tracked := by
  induction cs generalizing n with
  | nil => exact h
  | cons c cs ih =>
    -- the first write is at the head of those that still keep something
    refine ih (accounts_complete ?_)
    rw [List.filterMap_cons] at h
    cases hhold : c.token.hold? with
    | none => simpa [hhold] using h
    | some hold => simpa [hhold] using h

/-! ### Requests -/

/-- The accounts that concern the writes held back balance. -/
abbrev Balanced (n : Node) (guards : List (List EdgeId)) (tracked : Nat) : Prop :=
  n.Accounts n.holds guards tracked

theorem holds_of_held {queue : List (Write Submitter)} (h : n.store.held = some queue) :
    n.holds = queue.filterMap fun w => w.token.hold? := by
  rw [Node.holds, Store.heldWrites, h]
  rfl

theorem holds_of_not_held (h : n.store.held = none) : n.holds = [] := by
  rw [Node.holds, Store.heldWrites, h]
  rfl

theorem holds_congr (h : m.store.held = n.store.held) : m.holds = n.holds := by
  rw [Node.holds, Node.holds, Store.heldWrites, Store.heldWrites, h]

theorem Balanced.of_quiet (h : n.Balanced guards tracked) (hm : m.quiet = n.quiet) :
    m.Balanced guards tracked := by
  have hheld : m.store.held = n.store.held := congrArg (·.store.held) hm
  rw [Balanced, holds_congr hheld]
  exact Accounts.of_quiet h hm

theorem Balanced.congr (h : n.Balanced guards tracked) (hheld : m.store.held = n.store.held)
    (hlocks : m.locks = n.locks) (hinflight : m.inflight = n.inflight) :
    m.Balanced guards tracked := by
  rw [Balanced, holds_congr hheld]
  exact Accounts.congr h hlocks hinflight

theorem balanced_report (h : n.Balanced guards tracked) (request : Nat) (part : PartId)
    (code : ResultCode) : (n.report request part code).Balanced guards tracked :=
  h.congr (congrArg (·.held) (store_report ..)) (locks_report ..) (inflight_report ..)

theorem holds_enqueue {queue : List (Write Submitter)} (h : n.store.held = some queue) (t : Turn)
    (change : Change) (edges : Nat) (hold : Option Hold) :
    ((n.grant hold).enqueue queue (t.write change edges hold)).holds = n.holds ++ hold.toList := by
  have hjoined : ((n.grant hold).enqueue queue (t.write change edges hold)).store.held
      = some (queue ++ [t.write change edges hold]) := rfl
  rw [holds_of_held hjoined, holds_of_held h, List.filterMap_append]
  cases hold <;> rfl

/-- A turn keeps the accounts in balance, whether writes are held back or not. -/
theorem balanced_work (h : n.Balanced guards tracked) (t : Turn) :
    (n.work t).Balanced guards tracked := by
  cases hheld : n.store.held with
  | none =>
    have hframe := frame_work hheld t
    exact h.congr hframe.held hframe.locks hframe.inflight
  | some queue =>
    have hplanned := n.frame_planned t
    have hbalanced : (n.planned t).Balanced guards tracked :=
      h.congr hplanned.held hplanned.locks hplanned.inflight
    refine Balanced.of_quiet ?_ (quiet_work_of_held hheld)
    cases hverdict : n.verdict t with
    | refused e => exact balanced_report hbalanced ..
    | write change edges hold =>
      by_cases hlost : n.losesNext = true
      · simp only [if_pos hlost]
        exact hbalanced.congr rfl rfl rfl
      · -- the write joins the queue with what it keeps
        simp only [if_neg hlost]
        have hfree := free_of_verdict hverdict
        rw [← n.planned_locks t] at hfree
        have hgrant := accounts_grant hbalanced hfree
        rw [Balanced, holds_enqueue (hplanned.held.trans hheld)]
        exact hgrant.congr rfl rfl

theorem balanced_workAll (h : n.Balanced guards tracked) (ts : List Turn) :
    (n.workAll ts).Balanced guards tracked := by
  induction ts generalizing n with
  | nil => exact h
  | cons t ts ih => exact ih (balanced_work h t)

theorem balanced_failAll (h : n.Balanced guards tracked) (request : Nat) (parts : List PartId)
    (code : ResultCode) : (n.failAll request parts code).Balanced guards tracked := by
  induction parts generalizing n with
  | nil => exact h
  | cons part parts ih => exact ih (balanced_report h request part code)

theorem balanced_process (h : n.Balanced guards tracked) (r : DeleteRequest) :
    (n.process r).2.Balanced guards tracked := by
  have harrived : (n.arrived r).Balanced guards tracked := h.congr rfl rfl rfl
  refine Balanced.of_quiet ?_ (n.quiet_process r)
  cases n.turns r with
  | error e => exact balanced_failAll harrived ..
  | ok ts => exact balanced_workAll harrived ts

/-! ### Pauses -/

theorem balanced_pause (h : n.Balanced guards tracked) : n.pause.Balanced guards tracked := by
  have hholds : n.pause.holds = n.holds := rfl
  rw [Balanced, hholds]
  exact Accounts.congr h rfl rfl

/-- The node when the first ones of the writes held back were applied and their submitters know. -/
def resumedUpTo (n : Node) (k : Nat) : Node :=
  (n.store.heldWrites.take k).foldl finish { n with store := { n.store with held := none } }

theorem resumedUpTo_length (n : Node) :
    n.resumedUpTo n.store.heldWrites.length = n.resume.2 := by
  rw [resumedUpTo, List.take_length]
  rfl

/-- While one write after the other is applied, what the others keep is still accounted for. -/
theorem accounts_resumedUpTo (h : n.Balanced guards tracked) (k : Nat) :
    (n.resumedUpTo k).Accounts
      ((n.store.heldWrites.drop k).filterMap fun w => w.token.hold?) guards tracked := by
  rw [resumedUpTo, finishAll_eq]
  refine accounts_completeAll ?_
  -- the outcomes carry the tokens of the writes, in the same order
  have htaken : (Store.applyAll { n.store with held := none }
      (n.store.heldWrites.take k)).2.filterMap (fun c => c.token.hold?)
        = (n.store.heldWrites.take k).filterMap fun w => w.token.hold? := by
    have htokens := congrArg (List.filterMap Submitter.hold?)
      (Store.applyAll_tokens { n.store with held := none } (n.store.heldWrites.take k))
    rwa [List.filterMap_map, List.filterMap_map] at htokens
  rw [htaken, ← List.filterMap_append, List.take_append_drop]
  exact Accounts.congr h rfl rfl

theorem store_resume (n : Node) : n.resume.2.store = n.store.resume.1 := by
  rw [resume_snd]
  exact store_completeAll ..

theorem sequencer_resume (n : Node) : n.resume.2.sequencer = n.sequencer := by
  rw [resume_snd]
  exact sequencer_completeAll ..

theorem held_resume (n : Node) : n.resume.2.store.held = none := by
  rw [store_resume]
  exact Store.applyAll_held ..

theorem balanced_resume (h : n.Balanced guards tracked) :
    n.resume.2.Balanced guards tracked := by
  -- at the end of the pause all submitters know, so nothing is kept
  have haccounts := accounts_resumedUpTo h n.store.heldWrites.length
  rw [resumedUpTo_length, List.drop_length] at haccounts
  rw [Balanced, holds_of_not_held (held_resume n)]
  exact haccounts

theorem balanced_submit (h : n.Balanced guards tracked) (name : String) (place : Place)
    (change : Change) : (n.submit name place change).Balanced guards tracked := by
  refine Balanced.of_quiet ?_ (n.quiet_submit name place change)
  have hholds : Node.holds { n with
      store := (n.store.submit ⟨place, change, .outside name⟩).1 } = n.holds := by
    rw [Node.holds, Node.holds, Store.heldWrites, Store.heldWrites, Store.held_submit]
    cases n.store.held with
    | none => rfl
    | some queue =>
      show (queue ++ [_]).filterMap _ = _
      rw [List.filterMap_append]
      exact List.append_nil _
  rw [Balanced, hholds]
  exact Accounts.congr h rfl rfl

theorem balanced_processDeferred (h : n.Balanced guards tracked) (r : DeleteRequest) :
    (n.processDeferred r).2.Balanced guards tracked := by
  rw [processDeferred]
  by_cases hheld : n.store.held.isSome = true
  · rw [if_pos hheld]
    exact balanced_process h r
  · rw [if_neg hheld]
    exact balanced_resume (balanced_process (balanced_pause h) r)

end

end Node

/-! ### Where writes come from -/

/-- A write held back belongs to somebody outside or to a partition of a request.  In the latter
case it goes to that partition, and it keeps a claim on the edges of the request there if and
only if it is a batch; the removal of plain records keeps nothing. -/
def Write.ComesFrom (asked : List DeleteRequest) (w : Write Submitter) : Prop :=
  match w.token with
  | .outside _ => True
  | .partition request part _ hold =>
    ∃ r edges, asked[request]? = some r ∧ (part, edges) ∈ r.parts.entries ∧
      w.place = ⟨r.space, part⟩ ∧
      match hold with
      | none => ∃ keys, w.change = .remove keys
      | some hold => (∃ payload, w.change = .batch payload) ∧
          hold.claimed = LockTable.distinct (edges.map fun e => ⟨⟨r.space, part⟩, e⟩)

theorem Write.ComesFrom.append {asked : List DeleteRequest} {w : Write Submitter}
    (h : w.ComesFrom asked) (r : DeleteRequest) : w.ComesFrom (asked ++ [r]) := by
  obtain ⟨place, change, token⟩ := w
  cases token with
  | outside name => trivial
  | partition request part edges hold =>
    obtain ⟨r', edges', hr', hrest⟩ := h
    refine ⟨r', edges', ?_, hrest⟩
    rw [List.getElem?_append_left (List.getElem?_eq_some_iff.1 hr').1]
    exact hr'

namespace Node

/-- The requests have their numbers, and all writes held back come from somebody outside or from
a request. -/
structure Traced (n : Node) (asked : List DeleteRequest) : Prop where
  numbered : n.requests.length = asked.length
  origin : ∀ w ∈ n.store.heldWrites, w.ComesFrom asked

variable {n m : Node} {asked : List DeleteRequest}

theorem Traced.congr (h : n.Traced asked) (hrequests : m.requests.length = n.requests.length)
    (hheld : m.store.held = n.store.held) : m.Traced asked := by
  refine ⟨hrequests.trans h.numbered, ?_⟩
  rw [Store.heldWrites, hheld]
  exact h.origin

/-- What is held back after a turn was held back before, or the turn has submitted it. -/
theorem mem_heldWrites_work {t : Turn} {w : Write Submitter}
    (hw : w ∈ (n.work t).store.heldWrites) : w ∈ n.store.heldWrites ∨ w ∈ n.submitted t := by
  rw [Store.heldWrites, held_work] at hw
  rw [Store.heldWrites]
  cases hheld : n.store.held with
  | none => simp [hheld] at hw
  | some queue =>
    rw [hheld] at hw
    exact List.mem_append.1 hw

/-- The write of a turn comes from the request whose turn it is. -/
theorem comesFrom_of_submitted {t : Turn} {r : DeleteRequest} (hr : asked[t.request]? = some r)
    (hspace : t.place.space = r.space) (hpart : (t.place.part, t.edges) ∈ r.parts.entries)
    {w : Write Submitter} (hw : w ∈ n.submitted t) : w.ComesFrom asked := by
  have hplace : t.place = ⟨r.space, t.place.part⟩ := by rw [← hspace]
  obtain ⟨change, count, hold, hverdict, rfl⟩ := eq_write_of_submitted n t hw
  refine ⟨r, t.edges, hr, hpart, hplace, ?_⟩
  rcases of_verdict_write hverdict with ⟨-, -, hchange, rfl⟩ | ⟨-, -, hchange, _, rfl, -⟩
  · exact ⟨_, hchange⟩
  · refine ⟨⟨_, hchange⟩, ?_⟩
    show LockTable.distinct t.ids = _
    rw [← hplace]
    rfl

theorem length_requests_report (n : Node) (request : Nat) (part : PartId) (code : ResultCode) :
    (n.report request part code).requests.length = n.requests.length :=
  (congrArg (·.requests.length) (n.quiet_report request part code)).trans (List.length_modify ..)

theorem length_requests_complete (n : Node) (c : Completion Submitter) :
    (n.complete c).requests.length = n.requests.length := by
  obtain ⟨token, result, rejected⟩ := c
  cases token with
  | outside name =>
    exact congrArg (·.requests.length) (n.quiet_complete_outside name result rejected)
  | partition request part edges hold =>
    refine (congrArg (·.requests.length)
      (n.quiet_complete_partition request part edges hold result rejected)).trans ?_
    refine (length_requests_report ..).trans ?_
    cases hold <;> rfl

theorem length_requests_completeAll (n : Node) (cs : List (Completion Submitter)) :
    (n.completeAll cs).requests.length = n.requests.length := by
  induction cs generalizing n with
  | nil => rfl
  | cons c cs ih => exact (ih (n.complete c)).trans (n.length_requests_complete c)

theorem length_requests_resume (n : Node) :
    n.resume.2.requests.length = n.requests.length := by
  rw [resume_snd]
  exact length_requests_completeAll ..

theorem length_requests_work (n : Node) (t : Turn) :
    (n.work t).requests.length = n.requests.length := by
  cases hheld : n.store.held with
  | none => exact (frame_work hheld t).requests
  | some queue =>
    have hplanned := (n.frame_planned t).requests
    refine (congrArg (·.requests.length) (quiet_work_of_held hheld)).trans ?_
    cases n.verdict t with
    | refused e => exact (length_requests_report ..).trans hplanned
    | write change edges hold =>
      by_cases hlost : n.losesNext = true
      · simp only [if_pos hlost]
        exact hplanned
      · simp only [if_neg hlost]
        cases hold <;> exact hplanned

theorem traced_work (h : n.Traced asked) {t : Turn} {r : DeleteRequest}
    (hr : asked[t.request]? = some r) (hspace : t.place.space = r.space)
    (hpart : (t.place.part, t.edges) ∈ r.parts.entries) : (n.work t).Traced asked := by
  refine ⟨(n.length_requests_work t).trans h.numbered, fun w hw => ?_⟩
  rcases mem_heldWrites_work hw with hw | hw
  · exact h.origin w hw
  · exact comesFrom_of_submitted hr hspace hpart hw

theorem traced_workAll {ts : List Turn} (h : n.Traced asked)
    (hts : ∀ t ∈ ts, ∃ r : DeleteRequest, asked[t.request]? = some r ∧ t.place.space = r.space ∧
      (t.place.part, t.edges) ∈ r.parts.entries) : (n.workAll ts).Traced asked := by
  induction ts generalizing n with
  | nil => exact h
  | cons t ts ih =>
    obtain ⟨r, hr, hspace, hpart⟩ := hts t (List.mem_cons_self ..)
    exact ih (traced_work h hr hspace hpart) fun t ht => hts t (List.mem_cons_of_mem _ ht)

theorem traced_failAll (h : n.Traced asked) (request : Nat) (parts : List PartId)
    (code : ResultCode) : (n.failAll request parts code).Traced asked := by
  induction parts generalizing n with
  | nil => exact h
  | cons part parts ih =>
    exact ih (h.congr (length_requests_report ..) (congrArg (·.held) (store_report ..)))

theorem traced_process (h : n.Traced asked) (r : DeleteRequest) :
    (n.process r).2.Traced (asked ++ [r]) := by
  have harrived : (n.arrived r).Traced (asked ++ [r]) := by
    refine ⟨?_, fun w hw => (h.origin w hw).append r⟩
    rw [length_requests_arrived, List.length_append, h.numbered]
    rfl
  have hr : (asked ++ [r])[n.requests.length]? = some r := by
    rw [h.numbered, List.getElem?_append_right (Nat.le_refl _), Nat.sub_self]
    rfl
  have hof : ∀ m : Node, m.Traced (asked ++ [r]) → (n.process r).2.quiet = m.quiet →
      (n.process r).2.Traced (asked ++ [r]) := by
    intro m hm hquiet
    exact hm.congr (congrArg (·.requests.length) hquiet) (congrArg (·.store.held) hquiet)
  refine hof _ ?_ (n.quiet_process r)
  cases hturns : n.turns r with
  | error e => exact traced_failAll harrived ..
  | ok ts =>
    refine traced_workAll harrived fun t ht => ?_
    obtain ⟨hrequest, hspace, hpart⟩ := mem_turns hturns ht
    exact ⟨r, hrequest ▸ hr, hspace, hpart⟩

theorem traced_submit (h : n.Traced asked) (name : String) (place : Place) (change : Change) :
    (n.submit name place change).Traced asked := by
  have hquiet := n.quiet_submit name place change
  refine ⟨(congrArg (·.requests.length) hquiet).trans h.numbered, fun w hw => ?_⟩
  have hheld : (n.submit name place change).store.held
      = n.store.held.map (· ++ [⟨place, change, .outside name⟩]) :=
    (congrArg (·.store.held) hquiet).trans (Store.held_submit ..)
  rw [Store.heldWrites, hheld] at hw
  cases hqueue : n.store.held with
  | none => simp [hqueue] at hw
  | some queue =>
    rw [hqueue] at hw
    rcases List.mem_append.1 hw with hw | hw
    · exact h.origin w (by rw [Store.heldWrites, hqueue]; exact hw)
    · rw [List.mem_singleton.1 hw]
      trivial

theorem traced_resume (h : n.Traced asked) : n.resume.2.Traced asked := by
  refine ⟨(length_requests_resume n).trans h.numbered, ?_⟩
  rw [Store.heldWrites, held_resume]
  simp

theorem traced_processDeferred (h : n.Traced asked) (r : DeleteRequest) :
    (n.processDeferred r).2.Traced (asked ++ [r]) := by
  have hpause : n.pause.Traced asked := ⟨h.numbered, h.origin⟩
  rw [processDeferred]
  by_cases hheld : n.store.held.isSome = true
  · rw [if_pos hheld]
    exact traced_process h r
  · rw [if_neg hheld]
    exact traced_resume (traced_process hpause r)

end Node

/-! ### Runs -/

namespace Session

/-- Everything that a driver does keeps the accounts in balance, and the origin of the writes
held back is known. -/
structure Sound (s : Session) : Prop where
  balanced : s.node.Balanced s.guards s.tracked
  traced : s.node.Traced s.asked

theorem sound_start (options : Options) (catalog : Catalog) (clock : Nat → UInt64) :
    (start options catalog clock).Sound :=
  ⟨⟨LockTable.isUnion_empty, rfl⟩,
    ⟨rfl, by simp [start, Node.start, Store.heldWrites, Store.empty]⟩⟩

theorem sound_put {s : Session} (h : s.Sound) (place : Place) (key value : Bytes) :
    (s.act (.put place key value)).Sound := by
  rw [act]
  cases hput : s.node.store.put place key value with
  | error code => exact h
  | ok store =>
    have hheld : store.held = s.node.store.held := by
      rw [Store.put] at hput
      cases hc : s.node.store.contents place with
      | error code => simp [hc, Except.map] at hput
      | ok c =>
        rw [hc] at hput
        rw [← Except.ok.inj hput]
    exact ⟨h.balanced.congr hheld rfl rfl, h.traced.congr rfl hheld⟩

/-- A guard that the driver gets is free of the claims that there are. -/
theorem sound_lock {s : Session} (h : s.Sound) (edges : List EdgeId) :
    (s.act (.lock edges)).Sound := by
  rw [act, Node.claim]
  cases hclaim : s.node.locks.claim edges with
  | error edge => exact h
  | ok p =>
    obtain ⟨claimed, locks⟩ := p
    obtain ⟨-, rfl, hfree⟩ := LockTable.claim_of_ok hclaim
    refine ⟨⟨?_, h.balanced.inflight⟩, h.traced.congr rfl rfl⟩
    -- the new guard goes to the end of the list
    have hlocks := h.balanced.locks
    rw [← List.append_nil (_ ++ s.guards)] at hlocks
    have hhold := hlocks.hold hfree
    rwa [List.append_assoc] at hhold

/-- A guard that the driver gives back leaves the other claims alone. -/
theorem sound_unlock {s : Session} (h : s.Sound) (i : Nat) : (s.act (.unlock i)).Sound := by
  rw [act]
  cases hi : s.guards[i]? with
  | none => exact h
  | some claimed =>
    obtain ⟨hlt, hget⟩ := List.getElem?_eq_some_iff.1 hi
    have hsplit : s.guards = s.guards.take i ++ claimed :: s.guards.drop (i + 1) := by
      rw [← hget, List.getElem_cons_drop, List.take_append_drop]
    refine ⟨⟨?_, h.balanced.inflight⟩, h.traced.congr rfl rfl⟩
    have hlocks := h.balanced.locks
    rw [hsplit, ← List.append_assoc] at hlocks
    have hrelease := hlocks.release
    rw [List.append_assoc, ← List.eraseIdx_eq_take_drop_succ] at hrelease
    exact hrelease

/-- The driver counts down what it has counted up, so the count stays above zero for the rest. -/
theorem sound_untrack {s : Session} (h : s.Sound) : (s.act .untrack).Sound := by
  rw [act]
  by_cases hnone : s.tracked = 0
  · rw [if_pos hnone]
    exact h
  · rw [if_neg hnone]
    refine ⟨⟨h.balanced.locks, ?_⟩, h.traced.congr rfl rfl⟩
    have hcount := h.balanced.inflight
    show s.node.inflight - 1 = s.node.holds.length + (s.tracked - 1)
    omega

theorem sound_act {s : Session} (h : s.Sound) (a : Action) : (s.act a).Sound := by
  obtain ⟨hbalanced, htraced⟩ := h
  cases a with
  | delete r => exact ⟨Node.balanced_process hbalanced r, Node.traced_process htraced r⟩
  | deleteDeferred r =>
    exact ⟨Node.balanced_processDeferred hbalanced r, Node.traced_processDeferred htraced r⟩
  | pause => exact ⟨Node.balanced_pause hbalanced, ⟨htraced.numbered, htraced.origin⟩⟩
  | resume => exact ⟨Node.balanced_resume hbalanced, Node.traced_resume htraced⟩
  | failWrite place code => exact ⟨hbalanced.congr rfl rfl rfl, htraced.congr rfl rfl⟩
  | failScan place code => exact ⟨hbalanced.congr rfl rfl rfl, htraced.congr rfl rfl⟩
  | loseWrite => exact ⟨hbalanced.congr rfl rfl rfl, htraced.congr rfl rfl⟩
  | setMarkers markers => exact ⟨hbalanced.congr rfl rfl rfl, htraced.congr rfl rfl⟩
  | setCatalog catalog => exact ⟨hbalanced.congr rfl rfl rfl, htraced.congr rfl rfl⟩
  | setIndexCatalog catalog => exact ⟨hbalanced.congr rfl rfl rfl, htraced.congr rfl rfl⟩
  | setTime now => exact ⟨hbalanced.congr rfl rfl rfl, htraced.congr rfl rfl⟩
  | addPart place =>
    have hheld : (s.node.store.addPart place).held = s.node.store.held := by
      rw [Store.addPart]
      split <;> rfl
    exact ⟨hbalanced.congr hheld rfl rfl, htraced.congr rfl hheld⟩
  | put place key value => exact sound_put ⟨hbalanced, htraced⟩ place key value
  | submit name place change =>
    exact ⟨Node.balanced_submit hbalanced name place change,
      Node.traced_submit htraced name place change⟩
  | lock edges => exact sound_lock ⟨hbalanced, htraced⟩ edges
  | unlock i => exact sound_unlock ⟨hbalanced, htraced⟩ i
  | track =>
    refine ⟨⟨hbalanced.locks, ?_⟩, htraced.congr rfl rfl⟩
    exact congrArg (· + 1) hbalanced.inflight
  | untrack => exact sound_untrack ⟨hbalanced, htraced⟩

theorem sound_run {s : Session} (h : s.Sound) (actions : List Action) : (s.run actions).Sound := by
  induction actions generalizing s with
  | nil => exact h
  | cons a actions ih => exact ih (sound_act h a)

/-- **The accounts balance in every state of every run.**  The locked edges are those claimed by
the index-aware writes held back and by the driver, each of them once; the count of writes in
flight is the number of these writes and of what the driver counts.  This is so also while the
writes held back are completed one by one, so the count never has to go below zero. -/
theorem accounts_balance (options : Options) (catalog : Catalog) (clock : Nat → UInt64)
    (actions : List Action) :
    let s := (start options catalog clock).run actions
    (∀ id, s.node.locks.isLocked id = true ↔
        (∃ hold ∈ s.node.holds, id ∈ hold.claimed) ∨ ∃ guard ∈ s.guards, id ∈ guard) ∧
      (s.node.holds.map (·.claimed) ++ s.guards).Pairwise List.Disjoint ∧
      s.node.inflight = s.node.holds.length + s.tracked ∧
      (∀ w ∈ s.node.store.heldWrites, w.ComesFrom s.asked) ∧
      (s.node.holds = [] → s.guards = [] → s.tracked = 0 →
        s.node.locks = .empty ∧ s.node.inflight = 0) ∧
      ∀ k, (s.node.resumedUpTo k).Accounts
        ((s.node.store.heldWrites.drop k).filterMap fun w => w.token.hold?) s.guards s.tracked := by
  intro s
  obtain ⟨hbalanced, htraced⟩ := sound_run (sound_start options catalog clock) actions
  have hlocked : ∀ id, s.node.locks.isLocked id = true ↔
      (∃ hold ∈ s.node.holds, id ∈ hold.claimed) ∨ ∃ guard ∈ s.guards, id ∈ guard := by
    intro id
    rw [hbalanced.locks.locked]
    simp only [List.mem_append, List.mem_map, or_and_right, exists_or, exists_exists_and_eq_and]
    rfl
  refine ⟨hlocked, hbalanced.locks.disjoint, hbalanced.inflight, htraced.origin, ?_, fun k =>
    Node.accounts_resumedUpTo hbalanced k⟩
  -- with nothing held back and nothing held by the driver
  intro hholds hguards htracked
  have hnone : s.node.locks = .empty := by
    refine LockTable.ext_isLocked fun id => ?_
    rw [hlocked, hholds, hguards]
    simp [LockTable.isLocked, LockTable.empty, OrderedMap.contains]
  have hcount : s.node.inflight = s.node.holds.length + s.tracked := hbalanced.inflight
  rw [hholds, htracked] at hcount
  exact ⟨hnone, hcount⟩

end Session

end EdgeDeletion
