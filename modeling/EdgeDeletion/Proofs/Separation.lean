/-
Partitions do not see each other.

What a turn comes to depends on the contents of its partition, on the failures that are set
up for it, on which partitions are here and on the claims, and the turns of other partitions
change none of this:

* `Store.AgreeAt` — stores that look the same from a partition;
* `agreeAt_workAll` — turns of other partitions leave a store that looks the same;
* `ends_match` — a turn ends in the same way where the store looks the same.
-/
import EdgeDeletion.Proofs.Completeness
import EdgeDeletion.Proofs.Mirror

namespace EdgeDeletion

universe u

/-! ### Stores that look the same from a partition -/

namespace Store

variable {τ : Type u} {s s' s'' : Store τ} {place : Place}

/-- From a partition the stores look the same: the same partitions are here, and this one has the
same contents and the same failures ahead. -/
structure AgreeAt (place : Place) (s s' : Store τ) : Prop where
  places : s.SamePlaces s'
  parts : s.parts.get? place = s'.parts.get? place
  writeFault : s.writeFaults.get? place = s'.writeFaults.get? place
  scanFault : s.scanFaults.get? place = s'.scanFaults.get? place

theorem AgreeAt.refl (place : Place) (s : Store τ) : AgreeAt place s s :=
  ⟨fun _ => rfl, rfl, rfl, rfl⟩

theorem AgreeAt.trans (h : AgreeAt place s s') (h' : AgreeAt place s' s'') :
    AgreeAt place s s'' :=
  ⟨fun p => (h.places p).trans (h'.places p), h.parts.trans h'.parts,
    h.writeFault.trans h'.writeFault, h.scanFault.trans h'.scanFault⟩

theorem AgreeAt.symm (h : AgreeAt place s s') : AgreeAt place s' s :=
  ⟨fun p => (h.places p).symm, h.parts.symm, h.writeFault.symm, h.scanFault.symm⟩

theorem AgreeAt.contents (h : AgreeAt place s s') : s.contents place = s'.contents place := by
  rw [Store.contents, Store.contents, h.parts, missingCode_congr h.places]

theorem AgreeAt.stored (h : AgreeAt place s s') : s.stored place = s'.stored place := by
  rw [Store.stored, Store.stored, h.parts]

/-- A scan finds the same, and afterwards the stores look the same again. -/
theorem AgreeAt.scan (h : AgreeAt place s s') (start : Bytes) :
    (s.scan place start).2 = (s'.scan place start).2 ∧
      AgreeAt place (s.scan place start).1 (s'.scan place start).1 := by
  rw [Store.scan, Store.scan, h.scanFault, h.contents]
  cases s'.scanFaults.get? place with
  | none => exact ⟨rfl, h⟩
  | some code =>
    refine ⟨rfl, h.places, h.parts, h.writeFault, ?_⟩
    rw [OrderedMap.get?_erase, OrderedMap.get?_erase, if_pos rfl, if_pos rfl]

/-- Writes to the partition, both of them readable or neither, end in the same way. -/
theorem AgreeAt.result {w w' : Write τ} (h : AgreeAt w.place s s') (hplace : w'.place = w.place)
    (hops : (∃ ops, opsOf w.change = .ok ops) ↔ ∃ ops, opsOf w'.change = .ok ops) :
    (s.apply w).2.result = (s'.apply w').2.result := by
  rw [apply, apply, hplace, h.writeFault, h.contents]
  cases s'.writeFaults.get? w.place with
  | some code => rfl
  | none =>
    cases s'.contents w.place with
    | error code => rfl
    | ok c => cases hw : opsOf w.change <;> cases hw' : opsOf w'.change <;> simp_all

theorem agreeAt_scan_of_ne {other : Place} (hne : other ≠ place) (s : Store τ) (start : Bytes) :
    AgreeAt place s (s.scan other start).1 := by
  rw [scan]
  cases s.scanFaults.get? other with
  | none => exact .refl place s
  | some code =>
    refine ⟨fun _ => rfl, rfl, rfl, ?_⟩
    rw [OrderedMap.get?_erase, if_neg hne.symm]

/-- A write to another partition does not show. -/
theorem agreeAt_apply_of_ne {w : Write τ} (hne : w.place ≠ place) (s : Store τ) :
    AgreeAt place s (s.apply w).1 := by
  refine ⟨fun p => (s.samePlaces_apply w p).symm, (s.get?_parts_apply_of_ne w hne.symm).symm, ?_, ?_⟩
  · rw [apply]
    cases s.writeFaults.get? w.place with
    | some code =>
      show _ = (s.writeFaults.erase w.place).get? place
      rw [OrderedMap.get?_erase, if_neg hne.symm]
    | none =>
      cases s.contents w.place with
      | error code => rfl
      | ok c => cases opsOf w.change <;> rfl
  · obtain ⟨faults, parts, h, -⟩ := s.apply_fst w
    rw [h]

theorem agreeAt_counted (place : Place) (s : Store τ) : AgreeAt place s s.counted :=
  ⟨fun _ => rfl, rfl, rfl, rfl⟩

/-- What a write that succeeds leaves in its partition. -/
theorem parts_apply_of_ok {w : Write τ} {removed : List Bytes} {lines : List (UInt64 × Bytes)}
    (hdoes : w.change.Does w.place.part removed lines) (h : (s.apply w).2.result = .ok ()) :
    (s.apply w).1.parts.get? w.place
      = (s.parts.get? w.place).map fun c => (c.without removed).withLog w.place.part lines := by
  obtain ⟨c, ops, hc, hops, hparts⟩ := apply_of_ok h
  rw [hparts, OrderedMap.get?_insert, if_pos rfl, hc, hdoes ops hops c]
  rfl

end Store

namespace Scene

variable {τ : Type u} {s : Scene} {store store' : Store τ}

/-- From stores that look the same the same is planned for an edge. -/
theorem edgePlan_agree (h : Store.AgreeAt s.place store store') (edge : Edge) :
    (s.edgePlan store edge).2 = (s.edgePlan store' edge).2 ∧
      Store.AgreeAt s.place (s.edgePlan store edge).1 (s.edgePlan store' edge).1 := by
  rw [edgePlan, edgePlan]
  cases widthError? s.vidLen edge with
  | some e => exact ⟨rfl, h⟩
  | none =>
    obtain ⟨hfound, hafter⟩ := h.scan (Key.edgePrefix s.vidLen s.place.part edge)
    simp only [hfound]
    exact ⟨trivial, hafter⟩

theorem plan_agree (h : Store.AgreeAt s.place store store') (edges : List Edge) :
    (s.plan store edges).2 = (s.plan store' edges).2 ∧
      Store.AgreeAt s.place (s.plan store edges).1 (s.plan store' edges).1 := by
  induction edges generalizing store store' with
  | nil => exact ⟨rfl, h⟩
  | cons edge edges ih =>
    obtain ⟨hplan, hafter⟩ := edgePlan_agree h edge
    obtain ⟨hplans, hafters⟩ := ih hafter
    simp only [plan, hplan]
    by_cases herror : (s.edgePlan store' edge).2.error.isSome = true
    · simp only [if_pos herror]
      exact ⟨trivial, hafter⟩
    · simp only [if_neg herror, hplans]
      exact ⟨trivial, hafters⟩

/-- Plans for other partitions do not show. -/
theorem agreeAt_plan_of_ne {place : Place} (hne : s.place ≠ place) (edges : List Edge)
    (store : Store τ) : Store.AgreeAt place store (s.plan store edges).1 := by
  induction edges generalizing store with
  | nil => exact .refl place store
  | cons edge edges ih =>
    have hedge : Store.AgreeAt place store (s.edgePlan store edge).1 := by
      rw [edgePlan]
      cases widthError? s.vidLen edge with
      | some e => exact .refl place store
      | none => exact Store.agreeAt_scan_of_ne hne store _
    rw [plan]
    by_cases herror : (s.edgePlan store edge).2.error.isSome = true
    · simp only [if_pos herror]
      exact hedge
    · simp only [if_neg herror]
      exact hedge.trans (ih _)

end Scene

/-! ### Turns of other partitions -/

namespace Node

open Store (AgreeAt)

variable {n m : Node} {t : Turn} {place : Place}

theorem agreeAt_planned_of_ne (hne : t.place ≠ place) (n : Node) :
    AgreeAt place n.store (n.planned t).store := by
  rw [planned]
  by_cases hindexes : t.indexes.isEmpty = true
  · rw [if_pos hindexes]
    exact .refl place n.store
  · rw [if_neg hindexes]
    exact Scene.agreeAt_plan_of_ne hne t.edges n.store

/-- The turn of another partition leaves a store that looks the same. -/
theorem agreeAt_work_of_ne (hheld : n.store.held = none) (hne : t.place ≠ place) :
    AgreeAt place n.store (n.work t).store := by
  have hplanned := agreeAt_planned_of_ne hne n
  rw [store_work hheld]
  cases n.verdict t with
  | refused e => exact hplanned
  | write change edges hold =>
    by_cases hlost : n.losesNext = true
    · simp only [if_pos hlost]
      exact hplanned
    · simp only [if_neg hlost]
      exact (hplanned.trans (Store.agreeAt_counted ..)).trans (Store.agreeAt_apply_of_ne hne _)

theorem agreeAt_workAll {ts : List Turn} (hheld : n.store.held = none)
    (hne : ∀ t ∈ ts, t.place ≠ place) : AgreeAt place n.store (n.workAll ts).store := by
  induction ts generalizing n with
  | nil => exact .refl place n.store
  | cons t ts ih =>
    exact (agreeAt_work_of_ne hheld (hne t (List.mem_cons_self ..))).trans
      (ih ((frame_work hheld t).held.trans hheld) fun t ht => hne t (List.mem_cons_of_mem _ ht))

/-- No turn makes a write get lost. -/
theorem losesNext_work (hheld : n.store.held = none) (hkeeps : n.losesNext = false) (t : Turn) :
    (n.work t).losesNext = false := by
  have hplanned := (n.planned_losesNext t).trans hkeeps
  have hreport : ∀ (m : Node) (code : ResultCode),
      (m.report t.request t.place.part code).losesNext = m.losesNext := fun m code =>
    (congrArg Node.losesNext (m.quiet_report t.request t.place.part code)).trans rfl
  refine (congrArg Node.losesNext (quiet_work_of_not_held hheld)).trans ?_
  cases n.verdict t with
  | refused e => exact (hreport ..).trans hplanned
  | write change edges hold =>
    rw [hkeeps]
    exact (hreport ..).trans hplanned

theorem losesNext_workAll {ts : List Turn} (hheld : n.store.held = none)
    (hkeeps : n.losesNext = false) : (n.workAll ts).losesNext = false := by
  induction ts generalizing n with
  | nil => exact hkeeps
  | cons t ts ih =>
    exact ih ((frame_work hheld t).held.trans hheld) (losesNext_work hheld hkeeps t)

/-! ### The turn of a partition on two nodes -/

/-- The nodes look the same to a turn: the scene, the claims, and the store from its partition. -/
structure AgreeFor (t : Turn) (n m : Node) : Prop where
  scene : n.scene t = m.scene t
  locks : n.locks = m.locks
  store : AgreeAt t.place n.store m.store

theorem AgreeFor.planOf (h : AgreeFor t n m) : n.planOf t = m.planOf t := by
  rw [Node.planOf, Node.planOf, h.scene]
  exact (Scene.plan_agree (s := m.scene t) h.store t.edges).1

theorem AgreeFor.planned (h : AgreeFor t n m) :
    AgreeAt t.place (n.planned t).store (m.planned t).store := by
  rw [Node.planned, Node.planned]
  by_cases hindexes : t.indexes.isEmpty = true
  · rw [if_pos hindexes, if_pos hindexes]
    exact h.store
  · rw [if_neg hindexes, if_neg hindexes, h.scene]
    exact (Scene.plan_agree (s := m.scene t) h.store t.edges).2

/-- Both nodes come to the same verdict, but for the numbers that they draw. -/
theorem AgreeFor.sameVerdict (h : AgreeFor t n m) : n.SameVerdict m t t := by
  by_cases hindexes : t.indexes.isEmpty = true
  · exact sameVerdict_of_plain n m hindexes t.request
  · have hindexes : t.indexes.isEmpty = false := by simpa using hindexes
    have hsteps : m.stepsOf t (m.store.stored t.place) = n.stepsOf t (n.store.stored t.place) := by
      rw [stepsOf, stepsOf, h.scene, h.store.stored]
    cases herror : (n.planOf t).error with
    | some e =>
      refine .inl ⟨e, ?_, ?_⟩
      · simp [verdict, hindexes, herror]
      · simp [verdict, hindexes, ← h.planOf, herror]
    | none =>
      cases hclaim : n.locks.claim t.ids with
      | error edge =>
        refine .inl ⟨.conflict edge, ?_, ?_⟩
        · simp [verdict, hindexes, herror, hclaim]
        · simp [verdict, hindexes, ← h.planOf, herror, ← h.locks, hclaim]
      | ok p =>
        obtain ⟨edges, hold, hverdict⟩ := verdict_of_claim hindexes herror hclaim
        obtain ⟨edges', hold', hverdict'⟩ := verdict_of_claim (n := m) hindexes
          (h.planOf ▸ herror) (h.locks ▸ hclaim)
        refine .inr ⟨_, edges, hold, _, edges', hold', hverdict, hverdict', ?_, ?_, ?_⟩
        · rw [removedIn, removedIn, hindexes]
          exact congrArg Step.removedKeys hsteps
        · rw [deferredIn, deferredIn, hindexes]
          exact congrArg Step.deferredKeys hsteps
        · -- the payloads differ in the numbers alone
          rw [opsOf, opsOf, h.planOf]
          exact opsOf_toOps_iff ..

/-- What a turn comes to: a code, keys that go, and lines of the log under the next numbers. -/
structure Ends (n : Node) (t : Turn) (code : ResultCode) (removed keys : List Bytes) : Prop where
  code : (n.work t).codeOf? t.request t.place.part = some code
  parts : (n.work t).store.parts.get? t.place = (n.store.parts.get? t.place).map fun c =>
    (c.without removed).withLog t.place.part ((n.sequencer.drawMany keys.length).1.zip keys)
  drawn : keys = [] ∨ (n.work t).sequencer = (n.sequencer.drawMany keys.length).2

theorem map_nothing (n : Node) (place : Place) (part : PartId) :
    n.store.parts.get? place = (n.store.parts.get? place).map fun c =>
      (c.without []).withLog part ((n.sequencer.drawMany 0).1.zip []) := by
  simp [Sequencer.drawMany]

/-- The turn of a partition that has not reported, on a node that keeps and loses no write. -/
structure Ready (n : Node) (t : Turn) : Prop where
  held : n.store.held = none
  keeps : n.losesNext = false
  listed : t.request < n.requests.length
  silent : n.codeOf? t.request t.place.part = none

theorem ends_of_refused (h : n.Ready t) {e : DeleteError} (hverdict : n.verdict t = .refused e) :
    n.Ends t e.code [] [] := by
  refine ⟨?_, ?_, .inl rfl⟩
  · rw [codeOf?_work h.held h.listed h.silent, hverdict]
  · rw [store_work h.held, hverdict, planned_parts]
    exact n.map_nothing t.place t.place.part

theorem ends_of_write (h : n.Ready t) {change : Change} {edges : Nat} {hold : Option Hold}
    (hverdict : n.verdict t = .write change edges hold) {result : Except StoreCode Unit}
    (hresult : ((n.planned t).store.counted.apply (t.write change edges hold)).2.result = result) :
    n.Ends t (outcomeCode result) (if result = .ok () then n.removedIn t else [])
      (if result = .ok () then n.deferredIn t else []) := by
  obtain ⟨hdoes, -, hsequencer⟩ := does_of_verdict hverdict
  have hkeeps : ¬n.losesNext = true := by simp [h.keeps]
  have hcode : (n.work t).codeOf? t.request t.place.part = some (outcomeCode result) := by
    rw [codeOf?_work h.held h.listed h.silent, hverdict]
    simp only [if_neg hkeeps, hresult]
  have hstore : (n.work t).store
      = ((n.planned t).store.counted.apply (t.write change edges hold)).1 := by
    rw [store_work h.held, hverdict]
    simp only [if_neg hkeeps]
  have hbefore : (n.planned t).store.counted.parts = n.store.parts := n.planned_parts t
  cases result with
  | error code =>
    refine ⟨hcode, ?_, .inl rfl⟩
    rw [hstore, Store.apply_parts_of_error hresult, hbefore]
    exact n.map_nothing t.place t.place.part
  | ok u =>
    refine ⟨hcode, ?_, .inr ((sequencer_work ..).trans hsequencer)⟩
    have hparts := Store.parts_apply_of_ok (w := t.write change edges hold) hdoes hresult
    rw [hstore]
    rwa [hbefore] at hparts

/-- How a turn ends that succeeds. -/
theorem ends_of_succeeded (hheld : n.store.held = none) (hlen : t.request < n.requests.length)
    (hnone : n.codeOf? t.request t.place.part = none)
    (hcode : (n.work t).codeOf? t.request t.place.part = some .succeeded) :
    n.Ends t .succeeded (n.removedIn t) (n.deferredIn t) := by
  obtain ⟨change, edges, hold, hverdict, hok, hstore⟩ := write_of_succeeded hheld hlen hnone hcode
  obtain ⟨hdoes, -, hsequencer⟩ := does_of_verdict hverdict
  refine ⟨hcode, ?_, .inr ((sequencer_work ..).trans hsequencer)⟩
  have hbefore : (n.planned t).store.counted.parts = n.store.parts := n.planned_parts t
  have hparts := Store.parts_apply_of_ok (w := t.write change edges hold) hdoes hok
  rw [hstore]
  rwa [hbefore] at hparts

/-- A turn ends in the same way on nodes that look the same to it. -/
theorem ends_match (h : AgreeFor t n m) (hn : n.Ready t) (hm : m.Ready t) :
    ∃ code removed keys, n.Ends t code removed keys ∧ m.Ends t code removed keys := by
  rcases h.sameVerdict with ⟨e, hverdict, hverdict'⟩ |
    ⟨change, edges, hold, change', edges', hold', hverdict, hverdict', hremoved, hdeferred, hops⟩
  · exact ⟨_, _, _, ends_of_refused hn hverdict, ends_of_refused hm hverdict'⟩
  · have hcounted := ((Store.agreeAt_counted t.place (n.planned t).store).symm.trans
      h.planned).trans (Store.agreeAt_counted t.place (m.planned t).store)
    -- the payloads may differ in the numbers, but the outcome does not depend on these
    have hresult : ((n.planned t).store.counted.apply (t.write change edges hold)).2.result
        = ((m.planned t).store.counted.apply (t.write change' edges' hold')).2.result :=
      hcounted.result (w := t.write change edges hold) rfl hops
    have hends' := ends_of_write hm hverdict' rfl
    rw [← hresult, hremoved, hdeferred] at hends'
    exact ⟨_, _, _, ends_of_write hn hverdict rfl, hends'⟩

end Node

end EdgeDeletion
