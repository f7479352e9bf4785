/-
A run with pauses next to a serial run.

The nodes of both runs are kept in step by `Sim`: every pair has one code in both of them,
and both have removed the same keys and added the same lines from the start on, the first
one when its writes are applied.

* `InRun`, `InSerialRun` — what holds in either run by itself;
* `SameCodes`, `Sim` — what holds between the two;
* `inRun_work`, `inSerialRun_work` — the steps of either run.
-/
import EdgeDeletion.Proofs.Moves

namespace EdgeDeletion

namespace Node

variable {start n m : Node} {t : Turn}

/-! ### Two runs -/

/-- The first node is in a run with pauses, and every write that it holds back is of a request
that has arrived. -/
structure InRun (start n : Node) : Prop where
  setUp : start.SetUpAs n
  faultless : n.Faultless
  isolated : n.Isolated
  balanced : n.Balanced [] start.inflight
  awaited : ∀ w ∈ n.store.heldWrites, ∀ r, w.token.isOf r = true → r < n.requests.length

/-- The second node is in a serial run. -/
structure InSerialRun (start : Node) (count : Nat) (m : Node) : Prop where
  setUp : start.SetUpAs m
  faultless : m.Faultless
  unheld : m.store.held = none
  unlocked : ∀ id, m.locks.isLocked id = false
  numbered : m.requests.length = start.requests.length + count

/-- Every pair has one code in both runs. -/
def SameCodes (start : Node) (pairs : List Pair) (n m : Node) : Prop :=
  ∀ i p, pairs[i]? = some p → ∃ code, n.finalCode? p.request p.place.part = some code ∧
    m.finalCode? (start.requests.length + i) p.place.part = some code

/-- The second node, in the serial run of the pairs, is where the first one will be once its
writes were applied. -/
structure Sim (start : Node) (q : Sequencer) (pairs : List Pair) (n m : Node) : Prop where
  inRun : start.InRun n
  inSerialRun : start.InSerialRun pairs.length m
  codes : start.SameCodes pairs n m
  contents : ∃ removed log, Reached start removed log (·.first) n ∧
    Reached { start with sequencer := q } removed log (·.second) m

theorem InRun.of_quiet {n' : Node} (h : start.InRun n) (hn : n'.quiet = n.quiet) :
    start.InRun n' := by
  have hstore : n'.store = n.store := congrArg (·.store) hn
  have hrequests : n'.requests = n.requests := congrArg (·.requests) hn
  have hsame := setUpAs_of_quiet hn
  refine ⟨h.setUp.trans hsame, h.faultless.of_quiet hn, ?_, h.balanced.of_quiet hn, ?_⟩
  · exact h.isolated.congr hsame (by rw [hstore]) (by rw [hstore]) (congrArg (·.locks) hn)
  · rw [hstore, hrequests]
    exact h.awaited

theorem InSerialRun.of_quiet {count : Nat} {m' : Node} (h : start.InSerialRun count m)
    (hm : m'.quiet = m.quiet) : start.InSerialRun count m' := by
  have hstore : m'.store = m.store := congrArg (·.store) hm
  have hlocks : m'.locks = m.locks := congrArg (·.locks) hm
  refine ⟨h.setUp.trans (setUpAs_of_quiet hm), h.faultless.of_quiet hm, ?_, ?_, ?_⟩
  · rw [hstore, h.unheld]
  · rw [hlocks]
    exact h.unlocked
  · exact (congrArg (·.requests.length) hm).trans h.numbered

theorem finalCode?_of_quiet {n' : Node} (hn : n'.quiet = n.quiet) :
    n'.finalCode? = n.finalCode? := by
  show n'.quiet.finalCode? = n.quiet.finalCode?
  rw [hn]

theorem Sim.of_quiet {q : Sequencer} {pairs : List Pair} {n' m' : Node} (h : Sim start q pairs n m)
    (hn : n'.quiet = n.quiet) (hm : m'.quiet = m.quiet) : Sim start q pairs n' m' := by
  refine ⟨h.inRun.of_quiet hn, h.inSerialRun.of_quiet hm, ?_, ?_⟩
  · rw [SameCodes, finalCode?_of_quiet hn, finalCode?_of_quiet hm]
    exact h.codes
  · obtain ⟨removed, log, hfirst, hsecond⟩ := h.contents
    refine ⟨removed, log, hfirst.congr (congrArg (·.sequencer) hn) ?_,
      hsecond.congr (congrArg (·.sequencer) hm) ?_⟩
    · exact congrArg (·.store.landed) hn
    · exact congrArg (·.store.landed) hm

/-- Codes that are there stay. -/
theorem SameCodes.mono {pairs : List Pair} {n' : Node} (h : start.SameCodes pairs n m)
    (hn : ∀ request part code, n.finalCode? request part = some code →
      n'.finalCode? request part = some code) : start.SameCodes pairs n' m := by
  intro i p hp
  obtain ⟨code, hcode, hcode'⟩ := h i p hp
  exact ⟨code, hn _ _ _ hcode, hcode'⟩

/-- Codes that are there stay, and a pair that gets the same code in both runs joins them. -/
theorem SameCodes.append {pairs : List Pair} {p : Pair} {n' m' : Node}
    (h : start.SameCodes pairs n m) (code : ResultCode)
    (hnumbered : m.requests.length = start.requests.length + pairs.length)
    (hnone : n.finalCode? p.request p.place.part = none)
    (hn : ∀ request part, n'.finalCode? request part
      = if request = p.request ∧ part = p.place.part then some code else n.finalCode? request part)
    (hm : ∀ request part, m'.finalCode? request part
      = if request = m.requests.length ∧ part = p.place.part then some code
        else if request < m.requests.length then m.finalCode? request part else none) :
    start.SameCodes (pairs ++ [p]) n' m' := by
  intro i p' hp'
  rw [hn, hm]
  rcases Nat.lt_or_ge i pairs.length with hi | hi
  · -- an earlier pair, which is not the new one since that had no code
    rw [List.getElem?_append_left hi] at hp'
    obtain ⟨code', hcode, hcode'⟩ := h i p' hp'
    refine ⟨code', ?_, ?_⟩
    · rw [if_neg, hcode]
      rintro ⟨hrequest, hpart⟩
      rw [hrequest, hpart, hnone] at hcode
      simp at hcode
    · rw [if_neg fun hsame => by omega, if_pos (by omega), hcode']
  · rw [List.getElem?_append_right hi, List.getElem?_singleton] at hp'
    have hzero : i - pairs.length = 0 := by
      by_contra hne
      simp [hne] at hp'
    rw [if_pos hzero, Option.some.injEq] at hp'
    subst hp'
    exact ⟨code, if_pos ⟨rfl, rfl⟩, if_pos ⟨by omega, rfl⟩⟩

/-! ### Steps of the first run -/

theorem inRun_arrived (h : start.InRun n) (r : DeleteRequest) : start.InRun (n.arrived r) := by
  refine ⟨h.setUp.trans ⟨rfl, rfl, rfl⟩, h.faultless.congr rfl rfl,
    h.isolated.congr ⟨rfl, rfl, rfl⟩ rfl rfl rfl, h.balanced.congr rfl rfl rfl, ?_⟩
  intro w hw r' hr'
  have hlt := h.awaited w hw r' hr'
  rw [length_requests_arrived]
  omega

theorem inRun_work (h : start.InRun n) (ht : n.IsTurn t) (hlen : t.request < n.requests.length) :
    start.InRun (n.work t) := by
  refine ⟨h.setUp.trans (setUpAs_work h.faultless t), faultless_work h.faultless t,
    isolated_work h.faultless h.isolated ht h.balanced, balanced_work h.balanced t, ?_⟩
  intro w hw r hr
  rw [length_requests_work]
  rcases mem_heldWrites_work hw with hw | hw
  · exact h.awaited w hw r hr
  · obtain ⟨change, edges, hold, -, rfl⟩ := eq_write_of_submitted n t hw
    have hrequest : t.request = r := by simpa [Turn.write, Submitter.isOf] using hr
    omega

theorem inRun_report (h : start.InRun n) (request : Nat) (part : PartId) (code : ResultCode) :
    start.InRun (n.report request part code) := by
  have hquiet := n.quiet_report request part code
  refine InRun.of_quiet (n := { n with requests := _ }) ?_ hquiet
  refine ⟨h.setUp.trans ⟨rfl, rfl, rfl⟩, h.faultless.congr rfl rfl,
    h.isolated.congr ⟨rfl, rfl, rfl⟩ rfl rfl rfl, h.balanced.congr rfl rfl rfl, ?_⟩
  intro w hw r hr
  show r < (n.requests.modify request _).length
  rw [List.length_modify]
  exact h.awaited w hw r hr

theorem inRun_pause (h : start.InRun n) : start.InRun n.pause :=
  ⟨h.setUp.trans ⟨rfl, rfl, rfl⟩, ⟨h.faultless.scans, h.faultless.writes, h.faultless.keeps⟩,
    h.isolated.congr ⟨rfl, rfl, rfl⟩ rfl rfl rfl, balanced_pause h.balanced, h.awaited⟩

theorem inRun_resume (h : start.InRun n) : start.InRun n.resume.2 := by
  obtain ⟨locks, inflight, requests, hquiet⟩ := n.quiet_resume
  -- at the end of a pause nothing is held back, and by the accounts nothing is claimed
  have hbalanced := balanced_resume h.balanced
  have hheld := held_resume n
  refine ⟨h.setUp.trans ⟨?_, ?_, ?_⟩, faultless_resume h.faultless, ?_, hbalanced, ?_⟩
  · exact congrArg (·.catalog) hquiet
  · exact congrArg (·.indexCatalog) hquiet
  · exact congrArg (·.markers) hquiet
  · refine isolated_of_not_held hheld fun id => ?_
    have hlocks := hbalanced.locks
    rw [holds_of_not_held hheld] at hlocks
    simpa using (hlocks.locked id).not
  · rw [Store.heldWrites, hheld]
    simp

/-! ### Steps of the serial run -/

/-- The turn of a pair in the serial run. -/
theorem quiet_process_alone (ht : m.IsTurn t) :
    (m.process t.pair.alone).2.quiet
      = ((m.arrived t.pair.alone).work (t.renumbered m.requests.length)).quiet := by
  have hturns : m.turns t.pair.alone = .ok [t.renumbered m.requests.length] := by
    have hspace : t.pair.alone.space = t.place.space := rfl
    rw [turns, hspace, ht.vidLen, ht.indexes]
    rfl
  rw [quiet_process, hturns]
  rfl

theorem inSerialRun_arrived {count : Nat} (h : start.InSerialRun count m) (r : DeleteRequest) :
    start.InSerialRun (count + 1) (m.arrived r) := by
  refine ⟨h.setUp.trans ⟨rfl, rfl, rfl⟩, h.faultless.congr rfl rfl, h.unheld, h.unlocked, ?_⟩
  rw [length_requests_arrived, h.numbered]
  rfl

theorem finalCode?_serial_arrived {count : Nat} (h : start.InSerialRun count m) (r : DeleteRequest)
    (request : Nat) (part : PartId) :
    (m.arrived r).finalCode? request part
      = if request < m.requests.length then m.finalCode? request part else none := by
  refine finalCode?_arrived r ?_ request part
  rw [Store.heldWrites, h.unheld]
  simp

theorem inSerialRun_work {count : Nat} (h : start.InSerialRun count m) (t : Turn) :
    start.InSerialRun count (m.work t) := by
  have hframe := frame_work h.unheld t
  refine ⟨h.setUp.trans (setUpAs_work h.faultless t), faultless_work h.faultless t,
    hframe.held.trans h.unheld, ?_, hframe.requests.trans h.numbered⟩
  rw [hframe.locks]
  exact h.unlocked

theorem inSerialRun_report {count : Nat} (h : start.InSerialRun count m) (request : Nat)
    (part : PartId) (code : ResultCode) : start.InSerialRun count (m.report request part code) := by
  refine InSerialRun.of_quiet (m := { m with requests := _ }) ?_ (m.quiet_report request part code)
  refine ⟨h.setUp.trans ⟨rfl, rfl, rfl⟩, h.faultless.congr rfl rfl, h.unheld, h.unlocked, ?_⟩
  exact (List.length_modify ..).trans h.numbered

/-- The codes after the turn of a pair in the serial run. -/
theorem finalCode?_serial_work {count : Nat} (h : start.InSerialRun count m) (r : DeleteRequest)
    (ht : t.request = m.requests.length) (request : Nat) (part : PartId) :
    ((m.arrived r).work t).finalCode? request part
      = if request = m.requests.length ∧ part = t.place.part then some ((m.arrived r).outcome t)
        else if request < m.requests.length then m.finalCode? request part else none := by
  have harrived := finalCode?_serial_arrived h r
  have hlen : t.request < (m.arrived r).requests.length := by
    rw [ht, length_requests_arrived]
    exact Nat.lt_succ_self _
  have hnone : (m.arrived r).finalCode? t.request t.place.part = none := by
    rw [harrived, ht, if_neg (Nat.lt_irrefl _)]
  rw [finalCode?_work (inSerialRun_arrived h r).faultless hlen hnone, ht, harrived]

/-- The codes after the failure of a pair without a turn in the serial run. -/
theorem finalCode?_serial_report {count : Nat} (h : start.InSerialRun count m) (r : DeleteRequest)
    (p : PartId) (code : ResultCode) (request : Nat) (part : PartId) :
    ((m.arrived r).report m.requests.length p code).finalCode? request part
      = if request = m.requests.length ∧ part = p then some code
        else if request < m.requests.length then m.finalCode? request part else none := by
  have harrived := finalCode?_serial_arrived h r
  have hlen : m.requests.length < (m.arrived r).requests.length := by
    rw [length_requests_arrived]
    exact Nat.lt_succ_self _
  have hnone : (m.arrived r).finalCode? m.requests.length p = none := by
    rw [harrived, if_neg (Nat.lt_irrefl _)]
  rw [finalCode?_report hlen hnone, harrived]

end Node

end EdgeDeletion
