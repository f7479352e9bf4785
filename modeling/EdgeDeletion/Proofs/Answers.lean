/-
Every request is answered once.

* `submissions_strikeAll` — the store counts the writes that are submitted, stroke by stroke;
* `tallied_strikeAll` — the failure counter grows by the failures that are reported;
* `Lives.resolved_iff` — between two actions a request has its answer unless a write of it is
  held back or got lost;
* `parts_report_once` — all of this for every request of every run, and what the writes of a
  request keep is given up before its answer is complete.
-/
import EdgeDeletion.Proofs.Reporting
import Mathlib.Algebra.GroupWithZero.Nat

namespace EdgeDeletion

/-! ### Submissions -/

namespace Stroke

def isSubmission : Stroke → Bool
  | .submit _ => true
  | _ => false

end Stroke

namespace Session

open Phase

variable {s : Session} {h : List Stroke} {σ : Stroke}

/-- What the driver does in a run at a single stroke concerns no slot. -/
theorem isAside_of_next {l : Slot} {p q : Phase} {a : Action} (hnext : Next l p (.drive a) q) :
    a.isAside = true := by
  cases hnext with
  | elsewhere helse => exact helse

theorem submissions_strike {l : Slot} {p q : Phase} (hnext : Next l p σ q) (htrue : σ.IsTrueAt s) :
    (s.strike σ).node.store.submissions = s.node.store.submissions + σ.isSubmission.toNat := by
  cases σ with
  | spend store sequencer => exact htrue
  | apply w => exact Store.apply_submissions ..
  | refuse slot code => exact congrArg Store.submissions (Node.store_report ..)
  | report slot code => exact congrArg Store.submissions (Node.store_report ..)
  | arrive request r => exact congrArg (·.store.submissions) (s.quiet_strike_arrive request r)
  | drive a => exact (s.act_aside (isAside_of_next hnext)).2.2.2.1
  | _ => rfl

/-- The store has counted the writes that were submitted. -/
theorem submissions_strikeAll (horderly : Orderly h) (htruthful : s.Truthful h) :
    (s.strikeAll h).node.store.submissions
      = s.node.store.submissions + h.countP Stroke.isSubmission := by
  induction h using List.reverseRecOn with
  | nil => rfl
  | append_singleton h σ ih =>
    obtain ⟨hinit, hnext⟩ := horderly.init
    obtain ⟨htruthful, htrue, -⟩ := truthful_append.1 htruthful
    obtain ⟨p, q, -, hstep⟩ := hnext ⟨0, 0⟩
    rw [strikeAll_append, strikeAll_cons, strikeAll_nil, submissions_strike hstep htrue,
      ih hinit htruthful, List.countP_append, List.countP_singleton, Nat.add_assoc]
    cases σ.isSubmission <;> rfl

end Session

/-! ### Failures -/

namespace Collector

/-- How many failures were reported. -/
def failures (c : Collector) : Nat := c.reports.countP fun r => !r.code.isOk

theorem failures_start (expected : Nat) (now : UInt64) : (start expected now).1.failures = 0 := by
  rw [failures, start, finish_reports]
  rfl

theorem failures_report {c : Collector} {part : PartId} (hnew : part ∉ c.reports.map (·.part))
    (now : UInt64) (code : ResultCode) :
    (c.report now part code).1.failures = c.failures + (!code.isOk).toNat := by
  rw [report, any_part_eq_false hnew, if_neg Bool.false_ne_true]
  show (finish _ now).1.failures = _
  rw [failures, finish_reports, add, List.countP_append, List.countP_singleton]
  cases code.isOk <;> rfl

end Collector

namespace Node

/-- How many failures were reported to all requests. -/
def failures (n : Node) : Nat := (n.requests.map Collector.failures).sum

/-- The failure counter, if there are counters. -/
def tally (n : Node) : Option UInt64 := n.counters.map (·.failures)

theorem failures_emitAll (n : Node) (es : List Event) : (n.emitAll es).failures = n.failures := by
  show (n.emitAll es).quiet.failures = n.quiet.failures
  rw [quiet_emitAll]

theorem tally_emit (n : Node) (e : Event) :
    (n.emit e).tally = n.tally.map (· + UInt64.ofNat e.isFailure.toNat) := by
  rw [tally, tally, Option.map_map]
  cases hcounters : n.counters with
  | none => cases e <;> simp [emit, hcounters]
  | some c =>
    cases e with
    | signal s => cases s <;> simp [emit, hcounters, Counters.record, Event.isFailure]
    | _ => simp [emit, hcounters, Event.isFailure]

/-- The failure counter grows by the failures that are signalled. -/
theorem tally_emitAll (n : Node) (es : List Event) :
    (n.emitAll es).tally = n.tally.map (· + UInt64.ofNat (es.countP Event.isFailure)) := by
  induction es generalizing n with
  | nil =>
    show n.tally = n.tally.map (· + 0)
    cases n.tally <;> simp
  | cons e es ih =>
    have hcount : (e :: es).countP Event.isFailure
        = e.isFailure.toNat + es.countP Event.isFailure := by
      rw [List.countP_cons, Nat.add_comm]
      cases e.isFailure <;> rfl
    show ((n.emit e).emitAll es).tally = _
    rw [ih, tally_emit, Option.map_map, hcount, UInt64.ofNat_add]
    exact congrArg (Option.map · n.tally) (funext fun c => UInt64.add_assoc ..)

/-- The failures that are reported are those on the failure counter, besides what was there. -/
def Tallied (tally : Option UInt64) (n : Node) : Prop :=
  n.tally = tally.map (· + UInt64.ofNat n.failures)

variable {tally : Option UInt64} {n m : Node}

theorem Tallied.congr (h : n.Tallied tally) (hcounters : m.counters = n.counters)
    (hrequests : m.requests = n.requests) : m.Tallied tally := by
  rw [Tallied, Node.tally, failures, hcounters, hrequests]
  exact h

theorem Tallied.emitAll (h : n.Tallied tally) {es : List Event}
    (hes : es.countP Event.isFailure = 0) : (n.emitAll es).Tallied tally := by
  rw [Tallied, tally_emitAll, failures_emitAll, hes, h, Option.map_map]
  exact congrArg (Option.map · tally) (funext fun c => UInt64.add_zero _)

theorem Tallied.emit (h : n.Tallied tally) {e : Event} (he : e.isFailure = false) :
    (n.emit e).Tallied tally := by
  have hone : [e].countP Event.isFailure = 0 := by simp [he]
  exact h.emitAll hone

theorem Tallied.arrive (h : n.Tallied tally) (expected : Nat) :
    Tallied tally { n with requests := n.requests ++ [(Collector.start expected n.now).1] } := by
  have hfailures : ((n.requests ++ [(Collector.start expected n.now).1]).map
      Collector.failures).sum = n.failures := by
    rw [List.map_append, List.sum_append, List.map_singleton, Collector.failures_start]
    rfl
  rw [Tallied, failures, hfailures]
  exact h

/-- The first report of a partition goes to the failure counter if it is none of success. -/
theorem Tallied.report (h : n.Tallied tally) {request : Nat} {c : Collector} {part : PartId}
    (hc : n.requests[request]? = some c) (hnew : part ∉ c.reports.map (·.part))
    (code : ResultCode) : (n.report request part code).Tallied tally := by
  obtain ⟨hlt, hget⟩ := List.getElem?_eq_some_iff.1 hc
  have hreport : n.report request part code = { n with
      requests := n.requests.set request (c.report n.now part code).1 }.emitAll
        (c.report n.now part code).2 := by
    rw [Node.report, hc]
  have hsplit : n.requests = n.requests.take request ++ c :: n.requests.drop (request + 1) := by
    rw [← hget, ← List.drop_eq_getElem_cons hlt, List.take_append_drop]
  have hfailures : (n.report request part code).failures = n.failures + (!code.isOk).toNat := by
    rw [hreport, failures_emitAll, failures, failures, List.set_eq_take_append_cons_drop,
      if_pos hlt]
    conv_rhs => rw [hsplit]
    simp only [List.map_append, List.map_cons, List.sum_append, List.sum_cons,
      Collector.failures_report hnew]
    omega
  have htally : (n.report request part code).tally
      = n.tally.map (· + UInt64.ofNat (!code.isOk).toNat) := by
    rw [hreport, tally_emitAll, Collector.report_events hnew]
    rfl
  rw [Tallied, htally, hfailures, h, Option.map_map, UInt64.ofNat_add]
  exact congrArg (Option.map · tally) (funext fun c => UInt64.add_assoc ..)

end Node

namespace Session

open Phase

variable {s : Session} {h : List Stroke} {tally : Option UInt64}

theorem Gathered.tallied_report (hgathered : s.Gathered h) {l : Slot} {p : Phase}
    (hleads : Leads l .absent h p) (habsent : p ≠ .absent)
    (hp : p.hasReported = false) (htallied : s.node.Tallied tally) (code : ResultCode) :
    (s.node.report l.request l.part code).Tallied tally := by
  obtain ⟨r, hr, -⟩ := hgathered.asks_of_leads hleads habsent
  have hnew := not_mem_results hleads hp
  have hlt : l.request < s.node.requests.length := by
    rw [hgathered.numbered]
    exact (List.getElem?_eq_some_iff.1 hr).1
  have hc := List.getElem?_eq_getElem hlt
  refine htallied.report hc ?_ code
  rw [(hgathered.gathers _ _ r hc hr).gathered]
  exact hnew

/-- The failures that are reported are those on the failure counter, at every moment. -/
theorem tallied_strikeAll (hfresh : s.Gathered []) (hstart : s.node.Tallied tally)
    (horderly : Orderly h) (htruthful : s.Truthful h) :
    (s.strikeAll h).node.Tallied tally := by
  induction h using List.reverseRecOn with
  | nil => exact hstart
  | append_singleton h σ ih =>
    obtain ⟨hinit, hnext⟩ := horderly.init
    obtain ⟨htruthful, htrue, -⟩ := truthful_append.1 htruthful
    have ih := ih hinit htruthful
    have hgathered := gathered_strikeAll hfresh hinit htruthful
    rw [strikeAll_append, strikeAll_cons, strikeAll_nil]
    generalize s.strikeAll h = m at ih htrue hgathered
    cases σ with
    | note e => exact ih.emit htrue
    | look slot e =>
      obtain ⟨space, index, rfl⟩ := htrue
      exact ih.emit rfl
    | refuse slot code =>
      obtain ⟨p, q, hleads, hstep⟩ := hnext slot
      cases hstep with
      | elsewhere helse => exact absurd rfl helse.slot?_ne
      | fail | refuse => exact hgathered.tallied_report hleads nofun rfl ih code
    | report slot code =>
      obtain ⟨p, q, hleads, hstep⟩ := hnext slot
      cases hstep with
      | elsewhere helse => exact absurd rfl helse.slot?_ne
      | report => exact hgathered.tallied_report hleads nofun rfl ih code
    | arrive request r => exact (ih.arrive r.parts.size).emitAll (Collector.finish_events ..)
    | drive a =>
      obtain ⟨p, q, -, hstep⟩ := hnext ⟨0, 0⟩
      obtain ⟨hrequests, -, -, -, hcounters, -⟩ := m.act_aside (isAside_of_next hstep)
      exact ih.congr hcounters hrequests
    | _ => exact ih.congr rfl rfl

end Session

/-! ### Requests between two actions -/

theorem Submitter.isOf_iff {token : Submitter} {request : Nat} :
    token.isOf request = true ↔ ∃ part, token.slot? = some ⟨request, part⟩ := by
  cases token <;> simp [isOf, slot?]

namespace Session

open Phase

variable {s : Session} {h : List Stroke} {request : Nat}

/-- A slot that was asked for has reported unless its write is held back or got lost. -/
theorem Lives.mem_results_iff (hlives : s.Lives h) {l : Slot} (hasks : s.Asks l) :
    l.part ∈ (resultsOf l.request (said h)).map (·.part) ↔
      s.node.store.heldOf l = [] ∧ .lose l ∉ h := by
  obtain ⟨p, hleads, hstanding⟩ := hlives.standing l
  have hlost : .lose l ∈ h ↔ p.isLost = true := by
    rw [hleads.lost]
    simp [isLost]
  rw [hleads.mem_results_iff, hlost]
  generalize s.node.store.heldOf l = ws at hstanding
  cases hstanding with
  | absent hnot => exact absurd hasks hnot
  | _ => simp [hasReported, isLost]

theorem Lives.asks_of_lose (hlives : s.Lives h) {l : Slot} (hlose : .lose l ∈ h) : s.Asks l := by
  obtain ⟨p, hleads, hstanding⟩ := hlives.standing l
  have hlost := hleads.lost.2 (.inr hlose)
  by_contra hnot
  obtain ⟨rfl, -⟩ := hstanding.of_not_asked hnot
  exact absurd hlost nofun

theorem Lives.asks_of_held (hlives : s.Lives h) {l : Slot} {w : Write Submitter}
    (hw : w ∈ s.node.store.heldWrites) (hslot : w.token.slot? = some l) :
    s.Asks l ∧ s.node.store.heldOf l ≠ [] := by
  have hsome : s.node.store.heldOf l ≠ [] := by
    rw [Store.heldOf, Ne, List.filter_eq_nil_iff]
    exact fun hnone => hnone w hw (by simpa using hslot)
  obtain ⟨p, -, hstanding⟩ := hlives.standing l
  refine ⟨?_, hsome⟩
  by_contra hnot
  exact hsome (hstanding.of_not_asked hnot).2

/-- A request has its answer unless a write of it is held back or got lost. -/
theorem Lives.resolved_iff (hlives : s.Lives h) (hgathered : s.Gathered h) {r : DeleteRequest}
    (hr : s.asked[request]? = some r) :
    (∃ response, s.node.response? request = some response) ↔
      (∀ w ∈ s.node.store.heldWrites, w.token.isOf request = false) ∧
        ∀ part, .lose ⟨request, part⟩ ∉ h := by
  have hasks : ∀ part, s.Asks ⟨request, part⟩ ↔ part ∈ r.parts.keys := fun part =>
    ⟨fun ⟨r', hr', hpart⟩ => Option.some.inj (hr'.symm.trans hr) ▸ hpart, fun hpart => ⟨r, hr, hpart⟩⟩
  rw [hgathered.response_iff hlives.orderly hr]
  constructor
  · intro hall
    have hover : ∀ part, s.Asks ⟨request, part⟩ →
        s.node.store.heldOf ⟨request, part⟩ = [] ∧ .lose ⟨request, part⟩ ∉ h := fun part hpart =>
      (hlives.mem_results_iff hpart).1 (hall part ((hasks part).1 hpart))
    constructor
    · intro w hw
      by_contra hof
      obtain ⟨part, hslot⟩ := Submitter.isOf_iff.1 (by simpa using hof)
      obtain ⟨hpart, hsome⟩ := hlives.asks_of_held hw hslot
      exact hsome (hover part hpart).1
    · exact fun part hlose => (hover part (hlives.asks_of_lose hlose)).2 hlose
  · rintro ⟨hnone, hkept⟩ part hpart
    refine (hlives.mem_results_iff ((hasks part).2 hpart)).2 ⟨?_, hkept part⟩
    rw [Store.heldOf, List.filter_eq_nil_iff]
    intro w hw hslot
    have hof := Submitter.isOf_iff.2 ⟨part, by simpa using hslot⟩
    rw [hnone w hw] at hof
    exact absurd hof Bool.false_ne_true

/-- A request waits for its answer as long as a write of it is held back. -/
theorem Lives.waiting_iff (hlives : s.Lives h) (hgathered : s.Gathered h) {r : DeleteRequest}
    (hr : s.asked[request]? = some r) :
    s.node.poll request = .waiting ↔
      ∃ w ∈ s.node.store.heldWrites, w.token.isOf request = true := by
  rw [Node.poll_eq_waiting_iff, hgathered.numbered]
  constructor
  · exact fun ⟨_, _, hheld⟩ => hheld
  · rintro ⟨w, hw, hof⟩
    refine ⟨(List.getElem?_eq_some_iff.1 hr).1, ?_, w, hw, hof⟩
    cases hresponse : s.node.response? request with
    | none => rfl
    | some response =>
      have hnone := ((hlives.resolved_iff hgathered hr).1 ⟨response, hresponse⟩).1 w hw
      rw [hof] at hnone
      exact absurd hnone nofun

/-- The failures that were reported to a request are those in its answer. -/
theorem Gathered.failures_eq (hgathered : s.Gathered h) (horderly : Orderly h) {r : DeleteRequest}
    (hr : s.asked[request]? = some r) {response : DeleteResponse} {c : Collector}
    (hresponse : s.node.response? request = some response) (hc : s.node.requests[request]? = some c) :
    c.failures = response.failedParts.length := by
  obtain ⟨hresults, -⟩ := hgathered.results_eq horderly hr hresponse
  rw [Collector.failures, (hgathered.gathers request c r hc hr).gathered,
    DeleteResponse.failedParts, hresults, ← List.countP_eq_length_filter]
  exact ((List.mergeSort_perm ..).countP_eq _).symm

/-! ### Moments of a request -/

theorem asked_strike {l : Slot} {p q : Phase} {σ : Stroke} (hnext : Next l p σ q) {r : DeleteRequest}
    (hr : s.asked[request]? = some r) : (s.strike σ).asked[request]? = some r := by
  cases σ with
  | arrive request' r' =>
    show (s.asked ++ [r'])[request]? = some r
    rw [List.getElem?_append_left (List.getElem?_eq_some_iff.1 hr).1]
    exact hr
  | drive a =>
    have hasked : (s.strike (.drive a)).asked = s.asked := (s.act_aside (isAside_of_next hnext)).2.1
    rw [hasked]
    exact hr
  | _ => exact hr

/-- A request that was asked for stays so. -/
theorem asked_strikeAll {h' : List Stroke} (horderly : Orderly (h ++ h')) {r : DeleteRequest}
    (hr : (s.strikeAll h).asked[request]? = some r) :
    (s.strikeAll (h ++ h')).asked[request]? = some r := by
  induction h' using List.reverseRecOn with
  | nil => rwa [List.append_nil]
  | append_singleton h' σ ih =>
    rw [← List.append_assoc] at horderly ⊢
    obtain ⟨hinit, hnext⟩ := horderly.init
    obtain ⟨p, q, -, hstep⟩ := hnext ⟨0, 0⟩
    rw [strikeAll_append, strikeAll_cons, strikeAll_nil]
    exact asked_strike hstep (ih hinit)

/-- What the write of a slot keeps is given up when the answer to its request is complete. -/
theorem released_of_answered {h' : List Stroke} (hgathered : (s.strikeAll h).Gathered h)
    (hgathered' : (s.strikeAll (h ++ h')).Gathered (h ++ h')) (horderly : Orderly (h ++ h'))
    {l : Slot} {response : DeleteResponse} {w : Write Submitter} {hold : Hold}
    (hresponse : (s.strikeAll h).node.response? l.request = some response)
    (hmem : .submit w ∈ h ++ h') (hslot : w.token.slot? = some l)
    (hhold : w.token.hold? = some hold) :
    ∃ h₁ h₂, h = h₁ ++ .submit w :: h₂ ∧ .release l hold.claimed ∈ h₂ ∧ .untrack l ∈ h₂ := by
  obtain ⟨q, hwhole⟩ := horderly l
  obtain ⟨p, hleads, hrest⟩ := leads_append_iff.1 hwhole
  have hsubmits : Stroke.submits l (.submit w) = true := by simpa [Stroke.submits] using hslot
  -- the slot belongs to the request that has its answer
  have hasked : ∃ r, (s.strikeAll h).asked[l.request]? = some r ∧ l.part ∈ r.parts.keys := by
    obtain ⟨c, hc, -⟩ := Option.bind_eq_some_iff.1 hresponse
    have hlt : l.request < (s.strikeAll h).asked.length := by
      rw [← hgathered.numbered]
      exact (List.getElem?_eq_some_iff.1 hc).1
    obtain ⟨r', hr', hpart⟩ := hgathered'.asks_of_leads hwhole (by
      rintro rfl
      have hcount := hwhole.submits
      have hpos := List.countP_pos_iff.2 ⟨_, hmem, hsubmits⟩
      simp only [isDecided, Bool.toNat_false] at hcount
      omega)
    have hr := asked_strikeAll horderly (List.getElem?_eq_getElem hlt)
    obtain rfl := Option.some.inj (hr.symm.trans hr')
    exact ⟨_, List.getElem?_eq_getElem hlt, hpart⟩
  obtain ⟨r, hr, hpart⟩ := hasked
  have hreported : p.hasReported = true := hleads.mem_results_iff.1
    ((hgathered.response_iff horderly.of_append hr).1 ⟨response, hresponse⟩ l.part hpart)
  -- so it submits nothing any more
  have hbefore : .submit w ∈ h := by
    refine (List.mem_append.1 hmem).resolve_right fun hafter => ?_
    have hcount := hrest.submits
    have hpos := List.countP_pos_iff.2 ⟨_, hafter, hsubmits⟩
    have hdecided : p.isDecided = true := by
      cases p <;> first | rfl | exact absurd hreported Bool.false_ne_true
    have hle := q.isDecided.toNat_le
    rw [hdecided, Bool.toNat_true] at hcount
    omega
  obtain ⟨h₁, h₂, rfl, hwaiting⟩ := hleads.split_submit hbefore hslot
  have hduties := hwaiting.duties hreported
  simp only [Phase.duties, hhold, Option.toList, List.flatMap_singleton] at hduties
  exact ⟨h₁, h₂, rfl, hduties _ (by simp), hduties _ (by simp)⟩

/-! ### Lost writes -/

theorem losesNext_strike {l : Slot} {p q : Phase} {σ : Stroke} (hnext : Next l p σ q)
    (hloses : (s.strike σ).node.losesNext = true) :
    s.node.losesNext = true ∨ σ = .drive .loseWrite := by
  cases σ with
  | lose => simp [strike] at hloses
  | refuse slot code =>
    exact .inl ((congrArg Node.losesNext (Node.quiet_report ..)).symm.trans hloses)
  | report slot code =>
    exact .inl ((congrArg Node.losesNext (Node.quiet_report ..)).symm.trans hloses)
  | arrive request r =>
    exact .inl ((congrArg Node.losesNext (s.quiet_strike_arrive request r)).symm.trans hloses)
  | drive a =>
    have haside := isAside_of_next hnext
    cases a with
    | loseWrite => exact .inr rfl
    | delete | deleteDeferred | resume | submit => simp [Action.isAside] at haside
    | put place key value =>
      rw [strike, act] at hloses
      cases hput : s.node.store.put place key value <;> exact .inl (by simpa [hput] using hloses)
    | lock edges =>
      rw [strike, act, Node.claim] at hloses
      cases hclaim : s.node.locks.claim edges <;>
        exact .inl (by simpa [hclaim, Except.map] using hloses)
    | unlock i =>
      rw [strike, act] at hloses
      cases hguard : s.guards[i]? <;> exact .inl (by simpa [hguard, Node.release] using hloses)
    | untrack =>
      rw [strike, act] at hloses
      by_cases hnone : s.tracked = 0
      · exact .inl (by simpa [hnone] using hloses)
      · exact .inl (by simpa [hnone, Node.untrack] using hloses)
    | _ => exact .inl hloses
  | _ => exact .inl hloses

/-- A write gets lost only after the driver has asked for that. -/
theorem losesNext_strikeAll (horderly : Orderly h)
    (hloses : (s.strikeAll h).node.losesNext = true) :
    s.node.losesNext = true ∨ .drive .loseWrite ∈ h := by
  induction h using List.reverseRecOn with
  | nil => exact .inl hloses
  | append_singleton h σ ih =>
    obtain ⟨hinit, hnext⟩ := horderly.init
    obtain ⟨p, q, -, hstep⟩ := hnext ⟨0, 0⟩
    rw [strikeAll_append, strikeAll_cons, strikeAll_nil] at hloses
    rcases losesNext_strike hstep hloses with hbefore | rfl
    · exact (ih hinit hbefore).imp id (List.mem_append_left _)
    · exact .inr (List.mem_append_right _ (List.mem_singleton.2 rfl))

theorem drive_notMem_strokesOfRequest {n : Node} {r : DeleteRequest} {a : Action} :
    .drive a ∉ n.strokesOfRequest r := by
  intro hmem
  rcases List.mem_append.1 hmem with hmem | hmem
  · simp [Node.strokesOfArrival] at hmem
  · exact n.isWithin_strokesOfParts (P := fun _ => True) (fun _ _ => trivial) _ hmem

theorem drive_notMem_ofWrites {store : Store Submitter} {ws : List (Write Submitter)} {a : Action} :
    .drive a ∉ Stroke.ofWrites store ws := fun hmem =>
  Stroke.isWithin_ofWrites (P := fun _ => True) (fun _ _ _ _ => trivial) store _ hmem

theorem drive_notMem_strokesOfResume {n : Node} {a : Action} : .drive a ∉ n.strokesOfResume := by
  intro hmem
  rcases List.mem_cons.1 hmem with hmem | hmem
  · exact absurd hmem nofun
  · exact drive_notMem_ofWrites hmem

/-- What the driver does in a run at a single stroke is one of its actions or a pause. -/
theorem drive_mem_timeline {actions : List Action} {a : Action}
    (hmem : .drive a ∈ s.timeline actions) : a ∈ actions ∨ a = .pause := by
  induction actions generalizing s with
  | nil => exact absurd hmem List.not_mem_nil
  | cons b actions ih =>
    rcases List.mem_append.1 hmem with hmem | hmem
    · cases b with
      | delete r => exact absurd hmem drive_notMem_strokesOfRequest
      | deleteDeferred r =>
        rw [strokes] at hmem
        by_cases hheld : s.node.store.held.isSome = true
        · rw [if_pos hheld] at hmem
          exact absurd hmem drive_notMem_strokesOfRequest
        · rw [if_neg hheld] at hmem
          rcases List.mem_cons.1 hmem with heq | hmem
          · exact .inr (Stroke.drive.inj heq)
          · rcases List.mem_append.1 hmem with hmem | hmem
            · exact absurd hmem drive_notMem_strokesOfRequest
            · exact absurd hmem drive_notMem_strokesOfResume
      | resume => exact absurd hmem drive_notMem_strokesOfResume
      | submit name place change =>
        rcases List.mem_cons.1 hmem with heq | hmem
        · simp at heq
        · by_cases hheld : s.node.store.held.isSome = true
          · simp [hheld] at hmem
          · rw [if_neg hheld] at hmem
            exact absurd hmem drive_notMem_ofWrites
      | _ =>
        rw [Stroke.drive.inj (List.mem_singleton.1 hmem)]
        exact .inl (List.mem_cons_self ..)
    · exact (ih hmem).imp (List.mem_cons_of_mem _) id

/-- No write gets lost in a run unless the driver asks for that. -/
theorem loseWrite_of_lose {actions : List Action} {l : Slot} (hkeeps : s.node.losesNext = false)
    (horderly : Orderly (s.timeline actions)) (hlose : .lose l ∈ s.timeline actions) :
    .loseWrite ∈ actions := by
  obtain ⟨before, after, hsplit⟩ := List.append_of_mem hlose
  rw [hsplit] at horderly
  rcases losesNext_strikeAll horderly.of_append (isTrueAt_of_timeline hsplit) with hloses | hdrive
  · rw [hkeeps] at hloses
    exact absurd hloses Bool.false_ne_true
  · refine (drive_mem_timeline (s := s) ?_).resolve_right nofun
    rw [hsplit]
    exact List.mem_append_left _ hdrive

/-! ### Runs -/

/-- A session whose signals are added to given sums, if there are any. -/
def counting (s : Session) (counters : Option Counters) : Session :=
  { s with node := { s.node with counters := counters } }

/-- **Every partition reports exactly once.**  Take any run.  A request waits for its answer as
long as a write of it is held back.  It has its answer when none is, unless a write of it got lost
on its way to the store, which no write does unless the driver asks for that.  The answer has one
result for each partition of the request, ascending, and it stays what it is whatever comes after.
At any moment at which it is complete, every write of the request that claimed edges has given
them up and is no longer counted as in flight.  A partition causes at most one submission, and
none if nobody asked for it.  The failure counter grows by the results that are no successes. -/
theorem parts_report_once (options : Options) (catalog : Catalog) (clock : Nat → UInt64)
    (counters : Option Counters) (actions : List Action) :
    let s₀ := (start options catalog clock).counting counters
    let s := s₀.run actions
    (∀ request r, s.asked[request]? = some r →
      (s.node.poll request = .waiting ↔
        ∃ w ∈ s.node.store.heldWrites, w.token.isOf request = true) ∧
      ((∃ response, s.node.poll request = .ready response) ↔
        (∀ w ∈ s.node.store.heldWrites, w.token.isOf request = false) ∧
          ∀ part, .lose ⟨request, part⟩ ∉ s₀.timeline actions) ∧
      ∀ response, s.node.poll request = .ready response →
        response.results.map (·.part) = r.parts.keys ∧
        (response.results.map (·.part)).Pairwise (· < ·) ∧
        (∀ more, (s.run more).node.poll request = .ready response) ∧
        ∀ c, s.node.requests[request]? = some c → c.failures = response.failedParts.length) ∧
    (.loseWrite ∉ actions → ∀ l, .lose l ∉ s₀.timeline actions) ∧
    (∀ before after l response w hold, s₀.timeline actions = before ++ after →
      (s₀.strikeAll before).node.response? l.request = some response →
      .submit w ∈ s₀.timeline actions → w.token.slot? = some l → w.token.hold? = some hold →
      ∃ mid rest, before = mid ++ .submit w :: rest ∧
        .release l hold.claimed ∈ rest ∧ .untrack l ∈ rest) ∧
    s.node.store.submissions = (s₀.timeline actions).countP Stroke.isSubmission ∧
    (∀ l, (s₀.timeline actions).countP (Stroke.submits l) ≤ 1 ∧
      (¬s.Asks l → (s₀.timeline actions).countP (Stroke.submits l) = 0)) ∧
    s.node.tally = counters.map fun c => c.failures + UInt64.ofNat s.node.failures := by
  intro s₀ s
  have hfresh : s₀.Lives [] := ⟨rfl, (lives_start options catalog clock).standing⟩
  have hnew : s₀.Gathered [] := ⟨rfl, fun _ _ hmem => absurd hmem List.not_mem_nil,
    fun request c r hc => absurd hc nofun⟩
  have hlives : s.Lives (s₀.timeline actions) := lives_run hfresh actions
  have horderly := hlives.orderly
  have htruthful := s₀.truthful_timeline actions
  have hrun : s₀.strikeAll (s₀.timeline actions) = s := strikeAll_timeline s₀ actions
  have hgathered : s.Gathered (s₀.timeline actions) :=
    hrun ▸ gathered_strikeAll hnew horderly htruthful
  refine ⟨fun request r hr => ⟨hlives.waiting_iff hgathered hr, ?_, ?_⟩, ?_, ?_, ?_, ?_, ?_⟩
  · simp only [Node.poll_eq_ready_iff]
    exact hlives.resolved_iff hgathered hr
  · intro response hready
    have hresponse := (Node.poll_eq_ready_iff ..).1 hready
    have hparts := (hgathered.results_eq horderly hr hresponse).2
    refine ⟨hparts, ?_, fun more => ?_, fun c hc => hgathered.failures_eq horderly hr hresponse hc⟩
    · rw [hparts]
      exact Node.ordered_keys r
    · have hlater : Orderly (s₀.timeline actions ++ s.timeline more) := by
        rw [← timeline_append]
        exact (lives_run hfresh (actions ++ more)).orderly
      have hstays := response?_strikeAll hlater (hrun.symm ▸ hresponse)
      rw [strikeAll_append, hrun, strikeAll_timeline] at hstays
      exact (Node.poll_eq_ready_iff ..).2 hstays
  · exact fun hkeeps l hlose => hkeeps (loseWrite_of_lose rfl horderly hlose)
  · intro before after l response w hold hsplit hresponse hmem hslot hhold
    rw [hsplit] at horderly htruthful hmem
    exact released_of_answered
      (gathered_strikeAll hnew horderly.of_append (truthful_append.1 htruthful).1)
      (gathered_strikeAll hnew horderly htruthful) horderly hresponse hmem hslot hhold
  · rw [← hrun, submissions_strikeAll horderly htruthful]
    exact Nat.zero_add _
  · intro l
    obtain ⟨p, hleads, hstanding⟩ := hlives.standing l
    have hsubmits := hleads.submits
    refine ⟨by have hle := p.isDecided.toNat_le; omega, fun hnot => ?_⟩
    obtain ⟨rfl, -⟩ := hstanding.of_not_asked hnot
    exact Nat.le_zero.1 hsubmits
  · have hstart : s₀.node.Tallied (counters.map (·.failures)) := by
      cases counters with
      | none => rfl
      | some c => exact congrArg some (UInt64.add_zero c.failures).symm
    have htallied := tallied_strikeAll hnew hstart horderly htruthful
    rw [hrun, Node.Tallied, Option.map_map] at htallied
    exact htallied

end Session

end EdgeDeletion
