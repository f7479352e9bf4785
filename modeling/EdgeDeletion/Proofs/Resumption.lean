/-
What a node comes to once the writes held back are applied.

Without faults the end of a pause is foreseen while it lasts: the contents that the
writes will leave behind (`landed`), and the code that every partition will have
reported (`finalCode?`).

* `landed_work`, `finalCode?_work` — a turn shows there as if nothing was held back;
* `parts_resume`, `codeOf?_resume` — what was foreseen is what resuming leads to.
-/
import EdgeDeletion.Proofs.Accounts
import EdgeDeletion.Proofs.Replanning

namespace EdgeDeletion

universe u

namespace Store

variable {τ : Type u} (s : Store τ)

/-- The partitions alone: nothing is held back, set to fail or counted. -/
def bare : Store τ := { empty with parts := s.parts }

/-- The partitions when the writes held back were applied, and the outcomes of these writes. -/
def landing : Store τ × List (Completion τ) := s.bare.applyAll s.heldWrites

/-- The partitions when the writes held back were applied. -/
def landed : Store τ := s.landing.1

variable {s}

theorem apply_of_faultless (h : s.writeFaults = .empty) (w : Write τ) :
    s.apply w =
      match s.contents w.place with
      | .error code => (s, ⟨w.token, .error code, none⟩)
      | .ok c =>
        match opsOf w.change with
        | .error e => (s, ⟨w.token, .error .unknown, some e⟩)
        | .ok ops =>
          ({ s with parts := s.parts.insert w.place (c.apply ops) }, ⟨w.token, .ok (), none⟩) := by
  rw [apply, h]
  rfl

/-- A write without faults is applied as a whole or fails without a trace. -/
theorem apply_cases (h : s.writeFaults = .empty) {w : Write τ} {removed : List Bytes}
    {lines : List (UInt64 × Bytes)} (hdoes : w.change.Does w.place.part removed lines) :
    ((s.apply w).1 = s ∧ (s.apply w).2.result ≠ .ok ()) ∨
      ((s.apply w).2.result = .ok () ∧ s.contents w.place = .ok (s.stored w.place) ∧
        (s.apply w).1 = { s with
          parts := s.parts.insert w.place
            (((s.stored w.place).without removed).withLog w.place.part lines) }) := by
  rw [apply_of_faultless h]
  cases hc : s.contents w.place with
  | error code => exact .inl ⟨rfl, by simp⟩
  | ok c =>
    cases hops : opsOf w.change with
    | error e => exact .inl ⟨rfl, by simp⟩
    | ok ops =>
      rw [stored_of_contents hc, ← hdoes ops hops c]
      exact .inr ⟨rfl, rfl, rfl⟩

/-- Without faults a write depends on the partitions only. -/
theorem apply_bare (h : s.writeFaults = .empty) (w : Write τ) :
    (s.apply w).1.bare = (s.bare.apply w).1 ∧ (s.apply w).2 = (s.bare.apply w).2 ∧
      (s.apply w).1.writeFaults = .empty := by
  have hcontents : s.bare.contents w.place = s.contents w.place := rfl
  rw [apply_of_faultless h, apply_of_faultless (s := s.bare) rfl, hcontents]
  cases s.contents w.place with
  | error code => exact ⟨rfl, rfl, h⟩
  | ok c =>
    cases opsOf w.change with
    | error e => exact ⟨rfl, rfl, h⟩
    | ok ops => exact ⟨rfl, rfl, h⟩

/-- Writes to the same partition, both of them readable or neither, end in the same way where the
same partitions are here. -/
theorem apply_result_congr {s' : Store τ} (w w' : Write τ) (h : s.writeFaults = .empty)
    (h' : s'.writeFaults = .empty) (hplaces : s.SamePlaces s') (hplace : w'.place = w.place)
    (hops : (∃ ops, opsOf w.change = .ok ops) ↔ ∃ ops, opsOf w'.change = .ok ops) :
    (s.apply w).2.result = (s'.apply w').2.result := by
  rw [apply_of_faultless h, apply_of_faultless h', hplace]
  rcases contents_of_samePlaces hplaces w.place with ⟨code, hc, hc'⟩ | ⟨hc, hc'⟩
  · rw [hc, hc']
  · rw [hc, hc']
    cases hw : opsOf w.change <;> cases hw' : opsOf w'.change <;> simp_all

theorem samePlaces_landed (s : Store τ) : s.landed.SamePlaces s := by
  -- for any writes applied to any store, to induct on the writes
  have hall : ∀ (ws : List (Write τ)) (s : Store τ), (s.applyAll ws).1.SamePlaces s := by
    intro ws
    induction ws with
    | nil => intro s place; rfl
    | cons w ws ih => exact fun s place => (ih _ place).trans (s.samePlaces_apply w place)
  exact hall s.heldWrites s.bare

theorem applyAll_bare (h : s.writeFaults = .empty) (ws : List (Write τ)) :
    (s.applyAll ws).1.bare = (s.bare.applyAll ws).1 ∧ (s.applyAll ws).2 = (s.bare.applyAll ws).2 ∧
      (s.applyAll ws).1.writeFaults = .empty := by
  induction ws generalizing s with
  | nil => exact ⟨rfl, rfl, h⟩
  | cons w ws ih =>
    obtain ⟨hstore, hdone, hfaults⟩ := apply_bare h w
    obtain ⟨hrest, hdones, hfaults⟩ := ih hfaults
    rw [hstore] at hrest hdones
    refine ⟨hrest, ?_, hfaults⟩
    show (s.apply w).2 :: ((s.apply w).1.applyAll ws).2 = _
    rw [hdone, hdones]
    rfl

theorem landing_of_not_held (h : s.held = none) : s.landing = (s.bare, []) := by
  rw [landing, heldWrites, h]
  rfl

theorem landing_of_held {queue : List (Write τ)} (h : s.held = some queue) :
    s.landing = s.bare.applyAll queue := by
  rw [landing, heldWrites, h]
  rfl

theorem landed_writeFaults (s : Store τ) : s.landed.writeFaults = .empty :=
  (applyAll_bare (s := s.bare) rfl s.heldWrites).2.2

/-- A write that is submitted lands after the writes before it, now or later. -/
theorem landed_submit (h : s.writeFaults = .empty) (w : Write τ) :
    (s.submit w).1.landed = (s.landed.apply w).1 := by
  cases hheld : s.held with
  | none =>
    have happly := apply_bare (s := s.counted) h w
    have hheld' : (s.counted.apply w).1.held = none := (s.counted.apply_held w).trans hheld
    rw [submit_of_not_held hheld, landed, landed, landing_of_not_held hheld,
      landing_of_not_held hheld']
    exact happly.1
  | some queue =>
    rw [submit_of_held hheld, landed, landed, landing_of_held hheld]
    exact congrArg Prod.fst (applyAll_append s.bare queue w)

theorem submit_faults (h : s.writeFaults = .empty) (w : Write τ) :
    (s.submit w).1.writeFaults = .empty ∧ (s.submit w).1.scanFaults = s.scanFaults := by
  cases hheld : s.held with
  | none =>
    rw [submit_of_not_held hheld]
    obtain ⟨faults, parts, happly, -⟩ := s.counted.apply_fst w
    exact ⟨(apply_bare (s := s.counted) h w).2.2, congrArg (·.scanFaults) happly⟩
  | some queue =>
    rw [submit_of_held hheld]
    exact ⟨h, rfl⟩

theorem applyAll_scanFaults (s : Store τ) (ws : List (Write τ)) :
    (s.applyAll ws).1.scanFaults = s.scanFaults := by
  induction ws generalizing s with
  | nil => rfl
  | cons w ws ih =>
    obtain ⟨faults, parts, happly, -⟩ := s.apply_fst w
    exact (ih (s.apply w).1).trans (congrArg (·.scanFaults) happly)

/-- Applying the writes held back leads to what was foreseen. -/
theorem resume_landing (h : s.writeFaults = .empty) :
    s.resume.1.bare = s.landed ∧ s.resume.2 = s.landing.2 ∧ s.resume.1.writeFaults = .empty :=
  applyAll_bare (s := { s with held := none }) h s.heldWrites

end Store

/-- The code that the outcome of a write is for a partition of a request, if it concerns it. -/
def Completion.codeFor? (c : Completion Submitter) (request : Nat) (part : PartId) :
    Option ResultCode :=
  match c.token with
  | .outside _ => none
  | .partition r p _ _ =>
    if request = r ∧ part = p then some (Node.outcomeCode c.result) else none

theorem Completion.codeFor?_of_isOf {c : Completion Submitter} {request : Nat}
    (h : c.token.isOf request = false) (part : PartId) : c.codeFor? request part = none := by
  rw [codeFor?]
  cases hc : c.token with
  | outside name => rfl
  | partition r p edges hold =>
    have hne : r ≠ request := by simpa [hc, Submitter.isOf] using h
    exact if_neg fun hsame => hne hsame.1.symm

namespace Node

variable {n : Node}

/-! ### Foreseen codes -/

/-- The code that a partition has reported, or will have once the writes held back are applied. -/
def finalCode? (n : Node) (request : Nat) (part : PartId) : Option ResultCode :=
  n.requests[request]?.bind fun c =>
    (c.code? part).or (n.store.landing.2.findSome? fun d => d.codeFor? request part)

theorem finalCode?_of_not_held (h : n.store.held = none) (request : Nat) (part : PartId) :
    n.finalCode? request part = n.codeOf? request part := by
  rw [finalCode?, Store.landing_of_not_held h, codeOf?]
  simp

theorem codeOf?_complete (n : Node) (c : Completion Submitter) (request : Nat) (part : PartId) :
    (n.complete c).codeOf? request part
      = n.requests[request]?.bind fun r => (r.code? part).or (c.codeFor? request part) := by
  obtain ⟨token, result, rejected⟩ := c
  cases token with
  | outside name =>
    refine (congrArg (codeOf? · request part)
      (n.quiet_complete_outside name result rejected)).trans ?_
    simp only [Completion.codeFor?, Option.or_none]
    rfl
  | partition request' part' edges hold =>
    have hrequests : (n.releaseHold hold).requests = n.requests := by cases hold <;> rfl
    refine (congrArg (codeOf? · request part)
      (n.quiet_complete_partition request' part' edges hold result rejected)).trans ?_
    refine (codeOf?_report ..).trans ?_
    rw [hrequests]
    refine congrArg (Option.bind _) (funext fun r => ?_)
    simp only [Completion.codeFor?]
    by_cases hsame : request = request' ∧ part = part'
    · obtain ⟨rfl, rfl⟩ := hsame
      simp only [and_self, if_true]
      cases r.code? part <;> rfl
    · rw [if_neg hsame, if_neg hsame, Option.or_none]

/-- The first outcome that concerns a partition is its code, unless it has reported before. -/
theorem codeOf?_completeAll (n : Node) (cs : List (Completion Submitter)) (request : Nat)
    (part : PartId) :
    (n.completeAll cs).codeOf? request part
      = n.requests[request]?.bind fun r =>
          (r.code? part).or (cs.findSome? fun d => d.codeFor? request part) := by
  induction cs generalizing n with
  | nil => simp [completeAll, codeOf?]
  | cons c cs ih =>
    have hcode := n.codeOf?_complete c request part
    have hlen := n.length_requests_complete c
    refine (ih (n.complete c)).trans ?_
    rw [codeOf?] at hcode
    -- completions neither add requests nor take any away
    cases hr : n.requests[request]? with
    | none =>
      have hr' : (n.complete c).requests[request]? = none := by
        rw [List.getElem?_eq_none_iff] at hr ⊢
        omega
      rw [hr']
      rfl
    | some r =>
      obtain ⟨r', hr'⟩ : ∃ r', (n.complete c).requests[request]? = some r' := by
        refine ⟨_, List.getElem?_eq_getElem ?_⟩
        rw [hlen]
        exact (List.getElem?_eq_some_iff.1 hr).1
      rw [hr, hr'] at hcode
      simp only [Option.bind_some] at hcode
      rw [hr']
      simp only [Option.bind_some, hcode, List.findSome?_cons]
      rw [Option.or_assoc]
      cases c.codeFor? request part <;> rfl

/-! ### Nodes without faults -/

/-- Nothing is set to fail or to get lost. -/
structure Faultless (n : Node) : Prop where
  scans : n.store.scanFaults = .empty
  writes : n.store.writeFaults = .empty
  keeps : n.losesNext = false

theorem Faultless.congr {m : Node} (h : n.Faultless) (hstore : m.store = n.store)
    (hloses : m.losesNext = n.losesNext) : m.Faultless := by
  refine ⟨?_, ?_, hloses.trans h.keeps⟩
  · rw [hstore, h.scans]
  · rw [hstore, h.writes]

theorem Faultless.of_quiet {m : Node} (h : n.Faultless) (hm : m.quiet = n.quiet) : m.Faultless :=
  h.congr (congrArg (·.store) hm) (congrArg (·.losesNext) hm)

theorem codeOf?_resume (h : n.Faultless) (request : Nat) (part : PartId) :
    n.resume.2.codeOf? request part = n.finalCode? request part := by
  have hdone := (Store.resume_landing h.writes).2.1
  rw [resume_snd]
  exact (codeOf?_completeAll ..).trans (congrArg (fun done => n.requests[request]?.bind fun r =>
    (r.code? part).or (List.findSome? (fun d => d.codeFor? request part) done)) hdone)

/-- Without faults a plan draws numbers, and that is all. -/
theorem planned_of_faultless (h : n.Faultless) (t : Turn) :
    n.planned t = { n with sequencer := (n.planned t).sequencer } := by
  rw [planned]
  by_cases hindexes : t.indexes.isEmpty = true
  · rw [if_pos hindexes]
  · have hfault : n.store.scanFaults.get? (n.scene t).place = none := by
      rw [h.scans]
      rfl
    rw [if_neg hindexes, (Scene.plan_error hfault t.edges).1]

/-- The code for a turn, whether it is reported at once or later. -/
def outcome (n : Node) (t : Turn) : ResultCode :=
  match n.verdict t with
  | .refused e => e.code
  | .write change edges hold =>
    outcomeCode (n.store.landed.apply (t.write change edges hold)).2.result

/-- The code that is reported in a turn itself, which is none if its write is held back. -/
def reported? (n : Node) (t : Turn) : Option ResultCode :=
  match n.verdict t with
  | .refused _ => some (n.outcome t)
  | .write _ _ _ => if n.store.held.isSome then none else some (n.outcome t)

/-- What is kept after a turn because its write is held back. -/
def kept? (n : Node) (t : Turn) : Option Hold :=
  match n.verdict t with
  | .refused _ => none
  | .write _ _ hold => if n.store.held.isSome then hold else none

/-- The store after a turn, to which its write was submitted. -/
def submittedTo (n : Node) (t : Turn) : Store Submitter :=
  match n.verdict t with
  | .refused _ => n.store
  | .write change edges hold => (n.store.submit (t.write change edges hold)).1

/-- The requests after a turn that reports a code or none. -/
def reportedTo (n : Node) (t : Turn) (code : Option ResultCode) : List Collector :=
  match code with
  | none => n.requests
  | some code => n.requests.modify t.request fun c => (c.report n.now t.place.part code).1

/-- All that a turn does to a node without faults. -/
theorem quiet_work_of_faultless (h : n.Faultless) (t : Turn) :
    (n.work t).quiet = { n.quiet with
      sequencer := (n.planned t).sequencer
      store := n.submittedTo t
      requests := n.reportedTo t (n.reported? t) }.grant (n.kept? t) := by
  have hplanned := n.planned_of_faultless h t
  have hkeeps : ¬n.losesNext = true := by simp [h.keeps]
  cases hheld : n.store.held with
  | none =>
    rw [quiet_work_of_not_held hheld, submittedTo, reported?, kept?, outcome]
    cases n.verdict t with
    | refused e =>
      simp only
      rw [quiet_report, hplanned]
      rfl
    | write change edges hold =>
      -- nothing is held back, so the write is applied to what has landed
      have happly : (n.store.counted.apply (t.write change edges hold)).2
          = (n.store.landed.apply (t.write change edges hold)).2 := by
        rw [Store.landed, Store.landing_of_not_held hheld]
        exact (Store.apply_bare (s := n.store.counted) h.writes _).2.1
      simp only [if_neg hkeeps, hheld, Option.isSome_none, Bool.false_eq_true, if_false]
      rw [settle, quiet_report, Store.submit_of_not_held hheld, hplanned, ← happly]
      rfl
  | some queue =>
    rw [quiet_work_of_held hheld, submittedTo, reported?, kept?, outcome]
    cases n.verdict t with
    | refused e =>
      simp only
      rw [quiet_report, hplanned]
      rfl
    | write change edges hold =>
      simp only [if_neg hkeeps, hheld, Option.isSome_some, if_true]
      rw [Store.submit_of_held hheld, hplanned]
      cases hold <;> rfl

theorem store_work_of_faultless (h : n.Faultless) (t : Turn) :
    (n.work t).store = n.submittedTo t :=
  (congrArg (·.store) (quiet_work_of_faultless h t)).trans (store_grant ..)

theorem requests_work_of_faultless (h : n.Faultless) (t : Turn) :
    (n.work t).requests = n.reportedTo t (n.reported? t) := by
  refine (congrArg (·.requests) (quiet_work_of_faultless h t)).trans ?_
  cases n.kept? t <;> rfl

/-- A turn lands after those before it. -/
theorem landed_work (h : n.Faultless) (t : Turn) :
    (n.work t).store.landed =
      match n.verdict t with
      | .refused _ => n.store.landed
      | .write change edges hold => (n.store.landed.apply (t.write change edges hold)).1 := by
  rw [store_work_of_faultless h, submittedTo]
  cases n.verdict t with
  | refused e => rfl
  | write change edges hold => exact Store.landed_submit h.writes _

theorem faultless_work (h : n.Faultless) (t : Turn) : (n.work t).Faultless := by
  have hfaults : (n.submittedTo t).writeFaults = .empty ∧
      (n.submittedTo t).scanFaults = n.store.scanFaults := by
    rw [submittedTo]
    cases n.verdict t with
    | refused e => exact ⟨h.writes, rfl⟩
    | write change edges hold => exact Store.submit_faults h.writes _
  refine ⟨?_, ?_, ?_⟩
  · rw [store_work_of_faultless h, hfaults.2, h.scans]
  · rw [store_work_of_faultless h, hfaults.1]
  · refine (congrArg (·.losesNext) (quiet_work_of_faultless h t)).trans ?_
    exact (losesNext_grant ..).trans h.keeps

/-- A report gives a partition its code if it has and will have no other one. -/
theorem code_of_modify {requests : List Collector} (later : Nat → PartId → Option ResultCode)
    {now : UInt64} {r : Nat} {p : PartId} (hlen : r < requests.length)
    (hnone : (requests[r]?.bind fun c => (c.code? p).or (later r p)) = none) (code : ResultCode)
    (request : Nat) (part : PartId) :
    ((requests.modify r fun c => (c.report now p code).1)[request]?.bind fun c =>
        (c.code? part).or (later request part))
      = if request = r ∧ part = p then some code
        else requests[request]?.bind fun c => (c.code? part).or (later request part) := by
  rw [List.getElem?_eq_getElem hlen, Option.bind_some, Option.or_eq_none_iff] at hnone
  rw [List.getElem?_modify]
  by_cases hr : request = r
  · subst hr
    by_cases hp : part = p
    · subst hp
      simp [List.getElem?_eq_getElem hlen, Collector.code?_report, hnone.1]
    · simp [List.getElem?_eq_getElem hlen, Collector.code?_report, hp]
  · simp [hr, Ne.symm hr]

theorem finalCode?_report {r : Nat} {p : PartId} (hlen : r < n.requests.length)
    (hnone : n.finalCode? r p = none) (code : ResultCode) (request : Nat) (part : PartId) :
    (n.report r p code).finalCode? request part
      = if request = r ∧ part = p then some code else n.finalCode? request part := by
  have hquiet := n.quiet_report r p code
  have hstore : (n.report r p code).store = n.store := congrArg (·.store) hquiet
  have hrequests : (n.report r p code).requests
      = n.requests.modify r fun c => (c.report n.now p code).1 := congrArg (·.requests) hquiet
  rw [finalCode?, hstore, hrequests]
  exact code_of_modify (fun r p => n.store.landing.2.findSome? (Completion.codeFor? · r p)) hlen
    hnone code request part

/-- A turn that reports its outcome leaves the outcomes to come as they are. -/
theorem finalCode?_work_of_reported (h : n.Faultless) {t : Turn}
    (hlen : t.request < n.requests.length)
    (hnone : n.finalCode? t.request t.place.part = none)
    (hcode : n.reported? t = some (n.outcome t))
    (houtcomes : (n.submittedTo t).landing.2 = n.store.landing.2) (request : Nat) (part : PartId) :
    (n.work t).finalCode? request part
      = if request = t.request ∧ part = t.place.part then some (n.outcome t)
        else n.finalCode? request part := by
  rw [finalCode?, store_work_of_faultless h, requests_work_of_faultless h, hcode, houtcomes]
  exact code_of_modify (fun r p => n.store.landing.2.findSome? (Completion.codeFor? · r p)) hlen
    hnone (n.outcome t) request part

/-- A turn whose write is held back reports nothing, and its outcome is the last to come. -/
theorem finalCode?_work_of_held (h : n.Faultless) {t : Turn} {queue : List (Write Submitter)}
    {change : Change} {edges : Nat} {hold : Option Hold} (hlen : t.request < n.requests.length)
    (hnone : n.finalCode? t.request t.place.part = none) (hheld : n.store.held = some queue)
    (hverdict : n.verdict t = .write change edges hold) (request : Nat) (part : PartId) :
    (n.work t).finalCode? request part
      = if request = t.request ∧ part = t.place.part then some (n.outcome t)
        else n.finalCode? request part := by
  have hlanding : (n.submittedTo t).landing.2 = n.store.landing.2
      ++ [(n.store.landed.apply (t.write change edges hold)).2] := by
    rw [submittedTo, hverdict]
    show (n.store.submit (t.write change edges hold)).1.landing.2 = _
    rw [Store.submit_of_held hheld, Store.landed, Store.landing_of_held hheld]
    exact congrArg Prod.snd (Store.applyAll_append n.store.bare queue _)
  have hreported : n.reported? t = none := by
    rw [reported?, hverdict, hheld]
    rfl
  have hcode : Completion.codeFor? (n.store.landed.apply (t.write change edges hold)).2
      = fun r p => if r = t.request ∧ p = t.place.part then some (n.outcome t) else none := by
    rw [outcome, hverdict]
    funext r p
    rw [Completion.codeFor?, Store.apply_token]
    rfl
  rw [finalCode?, store_work_of_faultless h, requests_work_of_faultless h, hlanding, hreported,
    reportedTo]
  simp only [List.findSome?_append, List.findSome?_cons, List.findSome?_nil, hcode]
  by_cases hsame : request = t.request ∧ part = t.place.part
  · -- its partition has no code and no other outcome to come, so the last one counts
    obtain ⟨rfl, rfl⟩ := hsame
    rw [finalCode?, List.getElem?_eq_getElem hlen, Option.bind_some,
      Option.or_eq_none_iff] at hnone
    simp [List.getElem?_eq_getElem hlen, hnone.1, hnone.2]
  · simp only [if_neg hsame, Option.or_none]
    rfl

/-- A turn that was not reported yet has its outcome as the code of its partition. -/
theorem finalCode?_work (h : n.Faultless) {t : Turn} (hlen : t.request < n.requests.length)
    (hnone : n.finalCode? t.request t.place.part = none) (request : Nat) (part : PartId) :
    (n.work t).finalCode? request part
      = if request = t.request ∧ part = t.place.part then some (n.outcome t)
        else n.finalCode? request part := by
  cases hheld : n.store.held with
  | none =>
    refine finalCode?_work_of_reported h hlen hnone ?_ ?_ request part
    · rw [reported?, hheld]
      cases n.verdict t <;> rfl
    · rw [submittedTo]
      cases n.verdict t with
      | refused e => rfl
      | write change edges hold =>
        rw [Store.landing_of_not_held hheld, Store.landing_of_not_held]
        exact Store.held_submit.trans (by rw [hheld]; rfl)
  | some queue =>
    cases hverdict : n.verdict t with
    | refused e =>
      refine finalCode?_work_of_reported h hlen hnone ?_ ?_ request part
      · rw [reported?, hverdict]
      · rw [submittedTo, hverdict]
    | write change edges hold =>
      exact finalCode?_work_of_held h hlen hnone hheld hverdict request part

/-! ### Pauses -/

/-- Resuming leads to what was foreseen, and there is nothing more to come. -/
theorem resume_foreseen (h : n.Faultless) :
    n.resume.2.store.landed = n.store.landed ∧
      ∀ request part, n.resume.2.finalCode? request part = n.finalCode? request part := by
  constructor
  · rw [Store.landed, Store.landing_of_not_held (held_resume n), store_resume]
    exact (Store.resume_landing h.writes).1
  · intro request part
    rw [finalCode?_of_not_held (held_resume n), codeOf?_resume h]

theorem faultless_resume (h : n.Faultless) : n.resume.2.Faultless := by
  obtain ⟨locks, inflight, requests, hquiet⟩ := n.quiet_resume
  refine ⟨?_, ?_, (congrArg (·.losesNext) hquiet).trans h.keeps⟩
  · rw [store_resume]
    exact (Store.applyAll_scanFaults ..).trans h.scans
  · rw [store_resume]
    exact (Store.resume_landing h.writes).2.2

/-! ### Arrivals -/

/-- A request that has just arrived has no codes, and it will not get any from the writes held
back if these are not its own. -/
theorem finalCode?_arrived (r : DeleteRequest)
    (hnew : ∀ w ∈ n.store.heldWrites, w.token.isOf n.requests.length = false) (request : Nat)
    (part : PartId) :
    (n.arrived r).finalCode? request part
      = if request < n.requests.length then n.finalCode? request part else none := by
  by_cases hlt : request < n.requests.length
  · rw [if_pos hlt, finalCode?, finalCode?, arrived, List.getElem?_append_left hlt]
  · rw [if_neg hlt, finalCode?, arrived]
    rcases Nat.lt_or_eq_of_le (Nat.le_of_not_lt hlt) with hgt | rfl
    · rw [List.getElem?_eq_none (by rw [List.length_append]; exact hgt)]
      rfl
    · -- the request itself, which none of the outcomes to come concerns
      have hnone : (n.store.landing.2.findSome? fun d => d.codeFor? n.requests.length part)
          = none := by
        refine List.findSome?_eq_none_iff.2 fun d hd => ?_
        have htoken : d.token ∈ n.store.heldWrites.map (·.token) := by
          rw [← Store.applyAll_tokens n.store.bare]
          exact List.mem_map.2 ⟨d, hd, rfl⟩
        obtain ⟨w, hw, hw'⟩ := List.mem_map.1 htoken
        exact Completion.codeFor?_of_isOf (by rw [← hw', hnew w hw]) part
      rw [hnone, List.getElem?_append_right (Nat.le_refl _), Nat.sub_self]
      simp

end Node

end EdgeDeletion
