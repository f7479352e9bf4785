/-
A partition that fails leaves no trace.

Whatever stops the turn of a partition, its contents, the claims and the count of writes
in flight are afterwards what they were before.  Nothing was submitted for it either,
unless it was the store that failed the write.  A request whose space is not known has no
turns at all, and nothing is submitted for any of its partitions.

* `turn_of_failure` — this for one turn;
* `submissions_process` — the store counts the writes that the turns of a request submit,
  and no other ones;
* `failed_part_leaves_no_trace` — this for a partition of a request.
-/
import EdgeDeletion.Proofs.Frame

namespace EdgeDeletion

namespace Node

/-- The code with which the store fails the write of a turn, if it comes to that. -/
def failureOf? (n : Node) (t : Turn) : Option StoreCode :=
  match n.verdict t with
  | .refused _ => none
  | .write change edges hold =>
    if n.losesNext then none
    else
      match ((n.planned t).store.counted.apply (t.write change edges hold)).2.result with
      | .ok () => none
      | .error code => some code

/-- What a turn leaves behind that reports no success. -/
theorem turn_of_failure {n : Node} {t : Turn} {code : ResultCode} (hheld : n.store.held = none)
    (hlen : t.request < n.requests.length) (hnone : n.codeOf? t.request t.place.part = none)
    (hcode : (n.work t).codeOf? t.request t.place.part = some code) (hfail : code ≠ .succeeded) :
    (n.work t).store.parts = n.store.parts ∧
      (n.submitted t).length = (if (n.failureOf? t).isSome then 1 else 0) ∧
      ∀ c, n.failureOf? t = some c → code = .store c := by
  rw [codeOf?_work hheld hlen hnone] at hcode
  rw [store_work hheld, failureOf?, submitted]
  cases hverdict : n.verdict t with
  | refused e =>
    -- nothing is submitted, and planning writes nothing
    exact ⟨n.planned_parts t, rfl, by simp⟩
  | write change edges hold =>
    simp only [hverdict] at hcode ⊢
    -- a write that gets lost is never reported
    have hlost : ¬n.losesNext = true := by
      intro hlost
      simp [if_pos hlost] at hcode
    rw [if_neg hlost] at hcode ⊢
    simp only [if_neg hlost]
    cases hresult : ((n.planned t).store.counted.apply (t.write change edges hold)).2.result with
    | ok u =>
      rw [hresult] at hcode
      exact absurd (Option.some.inj hcode).symm hfail
    | error c =>
      rw [hresult] at hcode
      refine ⟨?_, rfl, ?_⟩
      · rw [Store.apply_parts_of_error hresult]
        exact n.planned_parts t
      · intro c' hc'
        rw [← Option.some.inj hc']
        exact (Option.some.inj hcode).symm

/-! ### The count of submissions -/

/-- The store counts the write that a turn submits. -/
theorem submissions_work {n : Node} (hheld : n.store.held = none) (t : Turn) :
    (n.work t).store.submissions = n.store.submissions + (n.submitted t).length := by
  rw [store_work hheld, submitted]
  cases n.verdict t with
  | refused e => exact n.planned_submissions t
  | write change edges hold =>
    by_cases hlost : n.losesNext = true
    · simp only [if_pos hlost]
      exact n.planned_submissions t
    · simp only [if_neg hlost]
      exact (Store.apply_submissions ..).trans (congrArg (· + 1) (n.planned_submissions t))

/-- The write that the turn of a partition submits, if there is such a turn and it does. -/
def submittedAt (n : Node) (r : DeleteRequest) (part : PartId) : List (Write Submitter) :=
  match n.turnOf? r part with
  | none => []
  | some t => (n.reached r (· < part)).submitted t

theorem submittedAt_of_error {n : Node} {r : DeleteRequest} {e : DeleteError}
    (hturns : n.turns r = .error e) (part : PartId) : n.submittedAt r part = [] := by
  rw [submittedAt, turnOf?, hturns]

/-- What the turns that are left of a request add to the count. -/
theorem submissions_workAll {n : Node} {r : DeleteRequest} {ts front rest : List Turn}
    (hheld : n.store.held = none) (hturns : n.turns r = .ok ts) (hts : ts = front ++ rest) :
    (((n.arrived r).workAll front).workAll rest).store.submissions
      = ((n.arrived r).workAll front).store.submissions
        + (rest.flatMap fun t => n.submittedAt r t.place.part).length := by
  induction rest generalizing front with
  | nil => rfl
  | cons t rest ih =>
    -- the first one of them is the turn of its partition
    have hascend := turns_ascending hturns
    rw [hts] at hascend
    obtain ⟨-, hrest, hfront⟩ := List.pairwise_append.1 hascend
    obtain ⟨hturn, hlt, -⟩ := reached_split hturns hts rfl
      (fun t' ht' => hfront t' ht' t (List.mem_cons_self ..)) (List.pairwise_cons.1 hrest).1
    have hsubmitted : n.submittedAt r t.place.part
        = ((n.arrived r).workAll front).submitted t := by
      simp only [submittedAt, hturn, hlt]
    have hsnoc : ((n.arrived r).workAll front).work t = (n.arrived r).workAll (front ++ [t]) := by
      rw [workAll, workAll, List.foldl_append]
      rfl
    have hfrontHeld := (frame_workAll (n := n.arrived r) hheld front).held.trans hheld
    show ((((n.arrived r).workAll front).work t).workAll rest).store.submissions = _
    rw [hsnoc, ih (by rw [hts, List.append_assoc]; rfl), ← hsnoc, submissions_work hfrontHeld,
      List.flatMap_cons, List.length_append, hsubmitted, Nat.add_assoc]

/-- The store counts the writes that the turns of a request submit, and no other ones. -/
theorem submissions_process {n : Node} (hheld : n.store.held = none) (r : DeleteRequest) :
    (n.process r).2.store.submissions
      = n.store.submissions + (r.parts.keys.flatMap (n.submittedAt r)).length := by
  cases hturns : n.turns r with
  | error e =>
    have hnone : r.parts.keys.flatMap (n.submittedAt r) = [] :=
      List.flatMap_eq_nil_iff.2 fun part _ => submittedAt_of_error hturns part
    rw [(process_of_error hturns).1, hnone]
    rfl
  | ok ts =>
    have hquiet := n.quiet_process r
    rw [hturns] at hquiet
    have hkeys : r.parts.keys = ts.map (·.place.part) := by
      obtain ⟨vidLen, indexes, -, -, rfl⟩ := eq_of_turns hturns
      rw [List.map_map]
      rfl
    rw [hkeys, List.flatMap_map]
    exact (congrArg (·.store.submissions) hquiet).trans
      (submissions_workAll hheld hturns (List.nil_append ts).symm)

/-! ### Partitions of a request -/

/-- The code with which the store fails the write of a partition, if it comes to that. -/
def failureAt? (n : Node) (r : DeleteRequest) (part : PartId) : Option StoreCode :=
  (n.turnOf? r part).bind (n.reached r (· < part)).failureOf?

/-- **A failed partition leaves no trace.**  Its contents, the claims and the count of writes in
flight are what they were before the request.  What the request adds to the count of submissions is
the writes of its partitions, and a failed one has none unless the store failed that very write,
with the code that is reported.  If the request fails as a whole, the count is what it was. -/
theorem failed_part_leaves_no_trace {n : Node} {r : DeleteRequest} {part : PartId}
    {edges : List Edge} {code : ResultCode} (hheld : n.store.held = none)
    (hpart : (part, edges) ∈ r.parts.entries)
    (hcode : (n.process r).2.codeOf? n.requests.length part = some code)
    (hfail : code ≠ .succeeded) :
    (n.process r).2.store.parts.get? ⟨r.space, part⟩ = n.store.parts.get? ⟨r.space, part⟩ ∧
      (n.process r).2.locks = n.locks ∧ (n.process r).2.inflight = n.inflight ∧
      (n.process r).2.store.submissions
        = n.store.submissions + (r.parts.keys.flatMap (n.submittedAt r)).length ∧
      (n.submittedAt r part).length = (if (n.failureAt? r part).isSome then 1 else 0) ∧
      (n.reached r (· ≤ part)).store.submissions
        = (n.reached r (· < part)).store.submissions
          + (if (n.failureAt? r part).isSome then 1 else 0) ∧
      (∀ c, n.failureAt? r part = some c → code = .store c) ∧
      ∀ e, n.turns r = .error e →
        code = e.code ∧ (n.process r).2.store.submissions = n.store.submissions := by
  have hcount := submissions_process hheld r
  cases hturns : n.turns r with
  | error e =>
    -- the space is not known, so no partition had a turn
    obtain ⟨hstore, -, hlocks, hinflight⟩ := process_of_error hturns
    have hnever : n.failureAt? r part = none := by rw [failureAt?, turnOf?, hturns]; rfl
    have hreported := codeOf?_process_of_error hturns (List.mem_map_of_mem hpart)
    rw [hstore, submittedAt_of_error hturns, hnever, reached, reached, hturns]
    refine ⟨rfl, hlocks, hinflight, hstore ▸ hcount, rfl, rfl, by simp, ?_⟩
    rintro _ ⟨⟩
    exact ⟨Option.some.inj (hcode.symm.trans hreported), rfl⟩
  | ok ts =>
    -- what the turn leaves behind is what the whole request does
    obtain ⟨vidLen, indexes, -, -, hturn, hle, hat⟩ := atTurn_of_mem hheld hturns hpart
    simp only [failureAt?, submittedAt, hturn, hle]
    have hcode := hat.code.symm.trans hcode
    obtain ⟨hparts, hlength, hcodes⟩ :=
      turn_of_failure hat.held hat.listed hat.silent hcode hfail
    refine ⟨?_, hat.locks, hat.inflight, hcount, hlength, ?_, hcodes, fun e he => ?_⟩
    · refine hat.after.trans (Eq.trans ?_ hat.before)
      rw [hparts]
    · rw [submissions_work hat.held]
      exact congrArg _ hlength
    · cases he

/-- A node whose next write to a partition fails, while somebody else holds an edge and counts
something as in flight. -/
def faulty : Node :=
  { start {} ⟨OrderedMap.empty.insert 1 ⟨1, OrderedMap.empty.insert 5 [], [⟨7, 5, "since", []⟩]⟩⟩
      fun _ => 0 with
    store := (Store.empty.addPart ⟨1, 3⟩).failWrite ⟨1, 3⟩ .leaderChanged
    locks := LockTable.empty.hold [⟨⟨1, 3⟩, ⟨[1], 5, 0, [1]⟩⟩]
    inflight := 2 }

/-- A request for another edge of that partition. -/
def faultyRequest : DeleteRequest := (DeleteRequest.empty 1).addPart 3 [⟨[1], 5, 0, [2]⟩]

/-- The same in a space that is not known. -/
def strayRequest : DeleteRequest := { faultyRequest with space := 2 }

theorem failed_part_leaves_no_trace_faulty :
    ((faulty.process faultyRequest).2.codeOf? 0 3 = some (.store .leaderChanged) ∧
      let after := (faulty.process faultyRequest).2
      after.store.parts.get? ⟨1, 3⟩ = faulty.store.parts.get? ⟨1, 3⟩ ∧
        after.locks = faulty.locks ∧ after.inflight = faulty.inflight ∧
        after.store.submissions = faulty.store.submissions + 1) ∧
    ((faulty.process strayRequest).2.codeOf? 0 3 = some .invalidSpaceVidLen ∧
      let after := (faulty.process strayRequest).2
      after.store.parts.get? ⟨2, 3⟩ = faulty.store.parts.get? ⟨2, 3⟩ ∧
        after.locks = faulty.locks ∧ after.inflight = faulty.inflight ∧
        after.store.submissions = faulty.store.submissions) := by
  have hcode : (faulty.process faultyRequest).2.codeOf? 0 3 = some (.store .leaderChanged) := by
    decide +kernel
  have hpart : ((3 : PartId), [(⟨[1], 5, 0, [2]⟩ : Edge)]) ∈ faultyRequest.parts.entries := by
    decide
  obtain ⟨hparts, hlocks, hinflight, hcount, hlength, -, -, -⟩ :=
    failed_part_leaves_no_trace (n := faulty) rfl hpart hcode (by decide)
  -- the one partition has one write, which the store fails
  have hfails : faulty.failureAt? faultyRequest 3 = some .leaderChanged := by decide +kernel
  have hone : (faultyRequest.parts.keys.flatMap (faulty.submittedAt faultyRequest)).length = 1 := by
    show (faulty.submittedAt faultyRequest 3 ++ []).length = 1
    rw [List.append_nil, hlength, hfails]
    rfl
  rw [hone] at hcount
  have hstray : (faulty.process strayRequest).2.codeOf? 0 3 = some .invalidSpaceVidLen := by
    decide +kernel
  obtain ⟨hparts', hlocks', hinflight', -, -, -, -, hwhole⟩ :=
    failed_part_leaves_no_trace (n := faulty) rfl (r := strayRequest) hpart hstray (by decide)
  exact ⟨⟨hcode, hparts, hlocks, hinflight, hcount⟩,
    hstray, hparts', hlocks', hinflight', (hwhole _ rfl).2⟩

end Node

end EdgeDeletion
