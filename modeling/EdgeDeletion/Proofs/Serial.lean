/-
Holding writes back is serializable.

Requests come in while writes are held back and let go in any order.  In the end the
contents and the reported codes are those of a serial run, in which the partitions of
the requests are deleted one at a time and nothing is ever held back, in the order in
which they were worked on and without those that the lock table refused.  Only the
numbers of the lines of the log differ, and not in their order.

* `sim_step` — one turn, next to the request that stands for it in the serial run;
* `pausing_serializable` — whole runs.
-/
import EdgeDeletion.Proofs.Completeness
import EdgeDeletion.Proofs.Simulation

namespace EdgeDeletion

namespace Node

variable {start n m : Node} {t : Turn}

/-! ### Both runs -/

theorem Sim.mirrors {q : Sequencer} {pairs : List Pair} (h : Sim start q pairs n m) :
    n.Mirrors m := by
  obtain ⟨removed, log, hfirst, hsecond⟩ := h.contents
  have hbare : m.store.landed = m.store.bare := by
    rw [Store.landed, Store.landing_of_not_held h.inSerialRun.unheld]
  have hplaces : n.store.landed.SamePlaces m.store := by
    intro place
    have hm : m.store.parts.get? place = m.store.landed.parts.get? place := by rw [hbare]; rfl
    rw [hm, hfirst.parts, hsecond.parts]
    simp
  refine ⟨?_, h.inSerialRun.unheld, h.inSerialRun.unlocked, ?_, ?_⟩
  · exact h.inRun.setUp.symm.trans h.inSerialRun.setUp
  · intro place
    exact (n.store.samePlaces_landed place).symm.trans (hplaces place)
  · -- keys of edges are not in the log, and both runs have removed the same of them
    intro place k hk
    have hlog : ∀ number, ∀ line ∈ LogLine.inPart log place number,
        k ≠ Key.deferral place.part line.1 :=
      fun number line _ => Key.ne_deferral_of_head? (by rw [hk]; decide) _ _
    have hm : m.store.stored place = m.store.landed.stored place := by rw [hbare]; rfl
    rw [hm, Store.stored, Store.stored, hfirst.parts, hsecond.parts]
    simp only
    cases start.store.parts.get? place with
    | none => rfl
    | some c =>
      simp only [Option.map_some, Option.getD_some]
      rw [Contents.get?_withLog_of_ne (hlog _), Contents.get?_withLog_of_ne (hlog _)]

/-- A turn that the lock table refuses is not in the serial run. -/
theorem sim_conflict {q : Sequencer} {pairs : List Pair} (h : Sim start q pairs n m)
    (ht : n.IsTurn t) (hlen : t.request < n.requests.length)
    (hnone : n.finalCode? t.request t.place.part = none) (hconflict : n.conflicts t = true) :
    Sim start q pairs (n.work t) m := by
  have hf := h.inRun.faultless
  refine ⟨inRun_work h.inRun ht hlen, h.inSerialRun, ?_, ?_⟩
  · refine h.codes.mono fun request part code hcode => ?_
    rw [finalCode?_work hf hlen hnone, if_neg, hcode]
    rintro ⟨rfl, rfl⟩
    rw [hnone] at hcode
    simp at hcode
  · obtain ⟨removed, log, hfirst, hsecond⟩ := h.contents
    refine ⟨removed, log, hfirst.work_failed ?_, hsecond⟩
    rw [conflicts] at hconflict
    rw [landed_work hf]
    cases hverdict : n.verdict t with
    | refused e => rfl
    | write change edges hold => simp [hverdict] at hconflict

/-- A turn has the same outcome in both runs, and where it has changed anything in the end it has
changed the same in both. -/
theorem contents_work_match {q : Sequencer} {pairs : List Pair} (h : Sim start q pairs n m)
    (ht : n.IsTurn t) (hadmitted : n.conflicts t = false) (r : DeleteRequest) :
    (m.arrived r).outcome (t.renumbered m.requests.length) = n.outcome t ∧
      ∃ removed log, Reached start removed log (·.first) (n.work t) ∧
        Reached { start with sequencer := q } removed log (·.second)
          ((m.arrived r).work (t.renumbered m.requests.length)) := by
  obtain ⟨removed, log, hfirst, hsecond⟩ := h.contents
  have hf := h.inRun.faultless
  have hf' : (m.arrived r).Faultless := h.inSerialRun.faultless.congr rfl rfl
  have hsecond : Reached { start with sequencer := q } removed log (·.second) (m.arrived r) :=
    hsecond.congr rfl rfl
  have hmirrors : n.Mirrors (m.arrived r) := by
    obtain ⟨hsetUp, hunheld, hunlocked, hplaces, hagree⟩ := h.mirrors
    exact ⟨hsetUp.trans ⟨rfl, rfl, rfl⟩, hunheld, hunlocked, hplaces, hagree⟩
  have hlanded : (m.arrived r).store.landed.SamePlaces n.store.landed := by
    intro place
    rw [(m.arrived r).store.samePlaces_landed, n.store.samePlaces_landed]
    exact (hmirrors.places place).symm
  generalize m.arrived r = m' at *
  generalize m.requests.length = request
  rcases verdict_match hf hf' hmirrors h.inRun.isolated ht hadmitted request with
    ⟨e, hverdict, hverdict'⟩ |
    ⟨change, edges, hold, change', edges', hold', hverdict, hverdict', hremoved, hdeferred, hops⟩
  · -- refused in both runs
    refine ⟨?_, removed, log, hfirst.work_failed ?_, hsecond.work_failed ?_⟩
    · rw [outcome, outcome, hverdict, hverdict']
    · rw [landed_work hf, hverdict]
    · rw [landed_work hf', hverdict']
  · have hresult := Store.apply_result_congr (t.write change edges hold)
      ((t.renumbered request).write change' edges' hold') n.store.landed_writeFaults
      m'.store.landed_writeFaults (fun place => (hlanded place).symm) rfl hops
    refine ⟨?_, ?_⟩
    · rw [outcome, outcome, hverdict, hverdict']
      exact congrArg outcomeCode hresult.symm
    · rcases landed_work_cases hf hverdict with ⟨hsame, hfails⟩ | ⟨hok, -⟩
      · -- the writes fail in both runs
        rcases landed_work_cases hf' hverdict' with ⟨hsame', -⟩ | ⟨hok', -⟩
        · exact ⟨removed, log, hfirst.work_failed hsame, hsecond.work_failed hsame'⟩
        · exact absurd (hresult.trans hok') hfails
      · -- the writes succeed in both runs, and the numbers drawn for them are paired up
        obtain ⟨hxs, hys, hkeys, hplace⟩ := LogLine.map_ofDraws t.place
          (n.length_numbersIn t) ((m'.length_numbersIn (t.renumbered request)).trans
            (congrArg List.length hdeferred))
        refine ⟨_, _, hfirst.work_applied hf hverdict hok hxs hkeys hplace, ?_⟩
        rw [← hremoved]
        exact hsecond.work_applied hf' hverdict' (hresult.symm.trans hok) hys
          (hkeys.trans hdeferred.symm) hplace

/-- A turn that the lock table does not refuse is in the serial run as a request of its own. -/
theorem sim_step {q : Sequencer} {pairs : List Pair} (h : Sim start q pairs n m)
    (ht : n.IsTurn t) (hlen : t.request < n.requests.length)
    (hnone : n.finalCode? t.request t.place.part = none) (hadmitted : n.conflicts t = false) :
    Sim start q (pairs ++ [t.pair]) (n.work t) (m.process t.pair.alone).2 := by
  obtain ⟨houtcome, hcontents⟩ := contents_work_match h ht hadmitted t.pair.alone
  have htm : m.IsTurn t := ht.congr h.mirrors.setUp
  refine Sim.of_quiet (m := (m.arrived t.pair.alone).work (t.renumbered m.requests.length)) ?_ rfl
    (quiet_process_alone htm)
  refine ⟨inRun_work h.inRun ht hlen, ?_, ?_, hcontents⟩
  · rw [List.length_append]
    exact inSerialRun_work (inSerialRun_arrived h.inSerialRun _) _
  · refine h.codes.append (n.outcome t) h.inSerialRun.numbered hnone ?_ ?_
    · exact finalCode?_work h.inRun.faultless hlen hnone
    · intro request part
      rw [finalCode?_serial_work h.inSerialRun t.pair.alone rfl, houtcome]
      rfl

/-- The turns of a request, next to the requests that stand for them in the serial run. -/
theorem sim_workAll {q : Sequencer} {pairs : List Pair} {ts : List Turn} (h : Sim start q pairs n m)
    (hts : ∀ t ∈ ts, n.IsTurn t ∧ t.request < n.requests.length ∧
      n.finalCode? t.request t.place.part = none)
    (hparts : ts.Pairwise fun t t' => t.place.part ≠ t'.place.part) :
    Sim start q (pairs ++ n.admittedAlong ts) (n.workAll ts) (m.serial (n.admittedAlong ts)) := by
  induction ts generalizing n m pairs with
  | nil =>
    rw [admittedAlong, List.append_nil]
    exact h
  | cons t ts ih =>
    obtain ⟨ht, hlen, hnone⟩ := hts t (List.mem_cons_self ..)
    obtain ⟨hother, hparts⟩ := List.pairwise_cons.1 hparts
    have hf := h.inRun.faultless
    -- the turn says nothing of the other partitions of its request
    have hrest : ∀ t' ∈ ts, (n.work t).IsTurn t' ∧ t'.request < (n.work t).requests.length ∧
        (n.work t).finalCode? t'.request t'.place.part = none := by
      intro t' ht'
      obtain ⟨hturn, hlen', hnone'⟩ := hts t' (List.mem_cons_of_mem _ ht')
      refine ⟨hturn.congr (setUpAs_work hf t), ?_, ?_⟩
      · rw [length_requests_work]
        exact hlen'
      · rw [finalCode?_work hf hlen hnone, if_neg, hnone']
        exact fun hsame => hother t' ht' hsame.2.symm
    rw [admittedAlong]
    cases hconflict : n.conflicts t with
    | true => exact ih (sim_conflict h ht hlen hnone hconflict) hrest hparts
    | false =>
      have hsim := ih (sim_step h ht hlen hnone hconflict) hrest hparts
      rw [List.append_assoc] at hsim
      exact hsim

/-- A partition of a space that is not known has no turn, and it has none in the serial run. -/
theorem sim_refuse {q : Sequencer} {pairs : List Pair} {p : Pair} {e : DeleteError}
    (h : Sim start q pairs n m) (hlen : p.request < n.requests.length)
    (hnone : n.finalCode? p.request p.place.part = none) (hunknown : m.turns p.alone = .error e) :
    Sim start q (pairs ++ [p]) (n.report p.request p.place.part e.code) (m.process p.alone).2 := by
  have hprocess : (m.process p.alone).2.quiet
      = ((m.arrived p.alone).report m.requests.length p.place.part e.code).quiet := by
    rw [quiet_process, hunknown]
    rfl
  obtain ⟨removed, log, hfirst, hsecond⟩ := h.contents
  have hquiet := n.quiet_report p.request p.place.part e.code
  have hquiet' := (m.arrived p.alone).quiet_report m.requests.length p.place.part e.code
  refine Sim.of_quiet (m := (m.arrived p.alone).report m.requests.length p.place.part e.code) ?_ rfl
    hprocess
  refine ⟨inRun_report h.inRun .., ?_, ?_, removed, log, ?_, ?_⟩
  · rw [List.length_append]
    exact inSerialRun_report (inSerialRun_arrived h.inSerialRun _) ..
  · refine h.codes.append e.code h.inSerialRun.numbered hnone ?_ ?_
    · exact finalCode?_report hlen hnone _
    · exact finalCode?_serial_report h.inSerialRun p.alone p.place.part e.code
  · exact hfirst.congr (congrArg (·.sequencer) hquiet) (congrArg (·.store.landed) hquiet)
  · exact hsecond.congr (congrArg (·.sequencer) hquiet') (congrArg (·.store.landed) hquiet')

theorem sim_failAll {q : Sequencer} {pairs : List Pair} {r : DeleteRequest} {e : DeleteError}
    {request : Nat} {ps : List (PartId × List Edge)} (h : Sim start q pairs n m)
    (hunknown : start.turns r = .error e) (hlen : request < n.requests.length)
    (hnone : ∀ p ∈ ps, n.finalCode? request p.1 = none)
    (hparts : ps.Pairwise fun p p' => p.1 ≠ p'.1) :
    Sim start q (pairs ++ ps.map fun p => ⟨request, ⟨r.space, p.1⟩, p.2⟩)
      (n.failAll request (ps.map Prod.fst) e.code)
      (m.serial (ps.map fun p => ⟨request, ⟨r.space, p.1⟩, p.2⟩)) := by
  induction ps generalizing n m pairs with
  | nil =>
    rw [List.map_nil, List.append_nil]
    exact h
  | cons p ps ih =>
    obtain ⟨hother, hparts⟩ := List.pairwise_cons.1 hparts
    -- in the serial run the space is not known either
    have hnonep := hnone p (List.mem_cons_self ..)
    have hsim := sim_refuse (p := ⟨request, ⟨r.space, p.1⟩, p.2⟩) h hlen hnonep
      (turns_of_error hunknown h.inSerialRun.setUp rfl)
    have hrest := ih hsim (by rw [length_requests_report]; exact hlen) ?_ hparts
    · rw [List.append_assoc] at hrest
      exact hrest
    · intro p' hp'
      rw [finalCode?_report hlen hnonep, if_neg, hnone p' (List.mem_cons_of_mem _ hp')]
      exact fun hsame => hother p' hp' hsame.2.symm

/-- None of the writes held back is of a request that is yet to arrive. -/
theorem finalCode?_inRun_arrived (h : start.InRun n) (r : DeleteRequest) (request : Nat)
    (part : PartId) :
    (n.arrived r).finalCode? request part
      = if request < n.requests.length then n.finalCode? request part else none := by
  refine finalCode?_arrived r ?_ request part
  intro w hw
  by_contra htoken
  have hlt := h.awaited w hw n.requests.length (by simpa using htoken)
  omega

theorem sim_arrived {q : Sequencer} {pairs : List Pair} (h : Sim start q pairs n m)
    (r : DeleteRequest) : Sim start q pairs (n.arrived r) m := by
  refine ⟨inRun_arrived h.inRun r, h.inSerialRun, ?_, ?_⟩
  · refine h.codes.mono fun request part code hcode => ?_
    have hlt : request < n.requests.length := by
      by_contra hge
      rw [finalCode?, List.getElem?_eq_none (Nat.le_of_not_lt hge)] at hcode
      simp at hcode
    rw [finalCode?_inRun_arrived h.inRun, if_pos hlt, hcode]
  · obtain ⟨removed, log, hfirst, hsecond⟩ := h.contents
    exact ⟨removed, log, hfirst.congr rfl rfl, hsecond⟩

/-- A request in the run with pauses, next to its pairs in the serial run. -/
theorem sim_process {q : Sequencer} {pairs : List Pair} (h : Sim start q pairs n m)
    (r : DeleteRequest) :
    Sim start q (pairs ++ n.admittedIn r) (n.process r).2 (m.serial (n.admittedIn r)) := by
  have hsim := sim_arrived h r
  have hnew : ∀ part, (n.arrived r).finalCode? n.requests.length part = none := by
    intro part
    rw [finalCode?_inRun_arrived h.inRun, if_neg (Nat.lt_irrefl _)]
  have hlen : n.requests.length < (n.arrived r).requests.length := by
    rw [length_requests_arrived]
    exact Nat.lt_succ_self _
  -- a request has each partition once
  have hordered : r.parts.entries.Pairwise fun p p' => p.1 ≠ p'.1 :=
    r.ascending.imp UInt32.ne_of_lt
  rw [admittedIn]
  cases hturns : n.turns r with
  | error e =>
    have hstart := turns_of_error hturns h.inRun.setUp.symm rfl
    refine Sim.of_quiet (sim_failAll hsim hstart hlen (fun p _ => hnew p.1) hordered) ?_ rfl
    rw [quiet_process, hturns]
    rfl
  | ok ts =>
    obtain ⟨vidLen, indexes, hvidLen, hindexes, rfl⟩ := eq_of_turns hturns
    refine Sim.of_quiet (sim_workAll hsim ?_ ?_) ?_ rfl
    · intro t ht
      obtain ⟨p, -, rfl⟩ := List.mem_map.1 ht
      exact ⟨⟨hvidLen, hindexes⟩, hlen, hnew _⟩
    · exact List.pairwise_map.2 hordered
    · rw [quiet_process, hturns]

theorem sim_pause {q : Sequencer} {pairs : List Pair} (h : Sim start q pairs n m) :
    Sim start q pairs n.pause m := by
  obtain ⟨removed, log, hfirst, hsecond⟩ := h.contents
  exact ⟨inRun_pause h.inRun, h.inSerialRun, h.codes, removed, log, hfirst.congr rfl rfl, hsecond⟩

theorem sim_resume {q : Sequencer} {pairs : List Pair} (h : Sim start q pairs n m) :
    Sim start q pairs n.resume.2 m := by
  obtain ⟨removed, log, hfirst, hsecond⟩ := h.contents
  obtain ⟨hlanded, hcodes⟩ := resume_foreseen h.inRun.faultless
  obtain ⟨locks, inflight, requests, hquiet⟩ := n.quiet_resume
  refine ⟨inRun_resume h.inRun, h.inSerialRun, ?_, removed, log, hfirst.congr ?_ hlanded, hsecond⟩
  · intro i p hp
    rw [hcodes]
    exact h.codes i p hp
  · exact congrArg (·.sequencer) hquiet

/-- A run with pauses, next to the serial run of its pairs. -/
theorem sim_moveAll {q : Sequencer} {pairs : List Pair} (h : Sim start q pairs n m)
    (moves : List Move) :
    Sim start q (pairs ++ n.admitted moves) (n.moveAll moves) (m.serial (n.admitted moves)) := by
  induction moves generalizing n m pairs with
  | nil =>
    rw [admitted, List.append_nil]
    exact h
  | cons a moves ih =>
    cases a with
    | delete r =>
      have hsim := ih (sim_process h r)
      rw [admitted, serial, List.foldl_append, ← List.append_assoc]
      exact hsim
    | pause => exact ih (sim_pause h)
    | resume => exact ih (sim_resume h)

/-! ### The theorem -/

/-- Nothing is held back, claimed, or set to fail. -/
structure Idle (n : Node) : Prop where
  unheld : n.store.held = none
  unlocked : n.locks = .empty
  faultless : n.Faultless

theorem sim_start (h : start.Idle) (q : Sequencer) :
    Sim start q [] start { start with sequencer := q } := by
  have hfree : ∀ id, start.locks.isLocked id = false := by
    rw [h.unlocked]
    intro id
    rfl
  have hbalanced : start.Balanced [] start.inflight := by
    rw [Balanced, holds_of_not_held h.unheld]
    refine ⟨?_, (Nat.zero_add _).symm⟩
    rw [h.unlocked]
    exact LockTable.isUnion_empty
  refine ⟨⟨⟨rfl, rfl, rfl⟩, h.faultless, isolated_of_not_held h.unheld hfree, hbalanced, ?_⟩,
    ⟨⟨rfl, rfl, rfl⟩, h.faultless.congr rfl rfl, h.unheld, hfree, rfl⟩, ?_, _, _,
    reached_start _ h.unheld _, reached_start { start with sequencer := q } h.unheld _⟩
  · rw [Store.heldWrites, h.unheld]
    simp
  · intro i p hp
    simp at hp

/-- No log has a line under one of the numbers, and they do not run out: only the last of them may
be the greatest there is. -/
structure Unused (n : Node) (numbers : List UInt64) : Prop where
  below : ∀ x ∈ numbers.dropLast, x ≠ 0xffffffffffffffff
  unstored : ∀ x ∈ numbers, ∀ place, n.store.get? place (Key.deferral place.part x) = none

/-- **Holding writes back is serializable.**  In the end the pairs that the lock table has not
refused have the codes, and the partitions the contents, of the serial run of these pairs in the
order in which they were worked on, whatever its sequencer; but for the numbers of the new lines of
the log, which ascend in both runs. -/
theorem pausing_serializable {n : Node} (hidle : n.Idle) (moves : List Move) (q : Sequencer)
    (hunused : n.Unused (n.drawnUntil (n.pausedRun moves)))
    (hunused' : n.Unused ({ n with sequencer := q }.drawnUntil (n.serialRun q moves))) :
    (∀ (i : Nat) (p : Pair), (n.admitted moves)[i]? = some p → ∃ code,
      (n.pausedRun moves).codeOf? p.request p.place.part = some code ∧
      (n.serialRun q moves).codeOf? (n.requests.length + i) p.place.part = some code) ∧
    ∃ log : List LogLine,
      (log.map (·.first)).Pairwise (· < ·) ∧ (log.map (·.second)).Pairwise (· < ·) ∧
      ∀ place, SameButNumbers place.part (log.filter fun line => line.place = place)
        ((n.pausedRun moves).store.parts.get? place)
        ((n.serialRun q moves).store.parts.get? place) := by
  have hsim : Sim n q (n.admitted moves) (n.pausedRun moves) (n.serialRun q moves) :=
    sim_resume (sim_moveAll (sim_start hidle q) moves)
  have hheld : (n.pausedRun moves).store.held = none := held_resume _
  -- from here on both runs are known by their simulation alone
  generalize n.pausedRun moves = after at *
  generalize n.serialRun q moves = serial at *
  have hheld' := hsim.inSerialRun.unheld
  obtain ⟨removed, log, hfirst, hsecond⟩ := hsim.contents
  refine ⟨?_, log, hfirst.ascending hunused.below, hsecond.ascending hunused'.below, ?_⟩
  · intro i p hp
    obtain ⟨code, hcode, hcode'⟩ := hsim.codes i p hp
    rw [finalCode?_of_not_held hheld] at hcode
    rw [finalCode?_of_not_held hheld'] at hcode'
    exact ⟨code, hcode, hcode'⟩
  · intro place
    have hparts := hfirst.parts place
    have hparts' := hsecond.parts place
    rw [Store.landed, Store.landing_of_not_held hheld] at hparts
    rw [Store.landed, Store.landing_of_not_held hheld'] at hparts'
    refine ⟨(n.store.parts.get? place).map (·.without (removed place)), ?_, ?_, ?_⟩
    · rw [Option.map_map]
      exact hparts
    · rw [Option.map_map]
      exact hparts'
    · -- the start has no lines under the numbers, so nothing that is left of it has
      intro c hc line hline
      obtain ⟨d, hd, rfl⟩ := Option.map_eq_some_iff.1 hc
      obtain ⟨hline, -⟩ := List.mem_filter.1 hline
      have hleft : ∀ x, n.store.get? place (Key.deferral place.part x) = none →
          (d.without (removed place)).get? (Key.deferral place.part x) = none := by
        intro x hx
        rw [Store.get?, hd, Option.bind_some] at hx
        rw [Contents.get?_without, hx, ite_self]
      exact ⟨hleft _ (hunused.unstored _ (hfirst.mem_drawn line hline) place),
        hleft _ (hunused'.unstored _ (hsecond.mem_drawn line hline) place)⟩

/-- While the write of a request is held back, the lock table refuses the same request. -/
def sampleMoves : List Move :=
  [.delete (DeleteRequest.empty 1), .pause, .delete sampleRequest, .delete sampleRequest]

theorem unused_sample {numbers : List UInt64}
    (hbelow : numbers.dropLast.all fun x => x != 0xffffffffffffffff)
    (hunstored : numbers.all fun x => sampleContents.get? (Key.deferral 3 x) = none) :
    sample.Unused numbers := by
  refine ⟨by simpa using hbelow, fun x hx place => ?_⟩
  have hparts : sample.store.parts = OrderedMap.empty.insert ⟨1, 3⟩ sampleContents := rfl
  rw [Store.get?, hparts, OrderedMap.get?_insert]
  by_cases hplace : place = ⟨1, 3⟩
  · rw [if_pos hplace, hplace]
    exact of_decide_eq_true (List.all_eq_true.1 hunstored x hx)
  · rw [if_neg hplace]
    rfl

theorem pausing_serializable_sample :
    (sample.admitted sampleMoves).length = 1 ∧
    (∀ (i : Nat) (p : Pair), (sample.admitted sampleMoves)[i]? = some p → ∃ code,
      (sample.pausedRun sampleMoves).codeOf? p.request p.place.part = some code ∧
      (sample.serialRun (.start fun _ => 7) sampleMoves).codeOf? (0 + i) p.place.part
        = some code) ∧
    ∃ log : List LogLine,
      (log.map (·.first)).Pairwise (· < ·) ∧ (log.map (·.second)).Pairwise (· < ·) ∧
      ∀ place, SameButNumbers place.part (log.filter fun line => line.place = place)
        ((sample.pausedRun sampleMoves).store.parts.get? place)
        ((sample.serialRun (.start fun _ => 7) sampleMoves).store.parts.get? place) := by
  have hadmitted : (sample.admitted sampleMoves).length = 1 := by decide +kernel
  refine ⟨hadmitted, pausing_serializable ⟨rfl, rfl, ⟨rfl, rfl, rfl⟩⟩ sampleMoves _ ?_ ?_⟩
  · exact unused_sample (by decide +kernel) (by decide +kernel)
  · exact unused_sample (by decide +kernel) (by decide +kernel)

end Node

end EdgeDeletion
