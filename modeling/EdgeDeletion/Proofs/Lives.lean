/-
The lives of all slots in a run.

Every slot that a request asks for is led from phase to phase, until it has reported or
its write is lost.  Between two actions it has come to its end, or it waits.

* `leads_strokesOfRequest`, `leads_strokesOfResume` — the life of a slot in a request and at the
  end of a pause;
* `lives_run` — every slot leads such a life in every run, and between two actions it waits
  if and only if its write is held back;
* `orderly_timeline` — it does so at every moment of a run.
-/
import EdgeDeletion.Proofs.Phases

namespace EdgeDeletion

/-! ### Slots between actions -/

/-- The writes of a slot that are held back. -/
def Store.heldOf (s : Store Submitter) (l : Slot) : List (Write Submitter) :=
  s.heldWrites.filter fun w => w.token.slot? = some l

theorem Store.heldOf_congr {s s' : Store Submitter} (h : s'.heldWrites = s.heldWrites)
    (l : Slot) : s'.heldOf l = s.heldOf l := by rw [heldOf, heldOf, h]

/-- Where a slot stands between two actions: a slot that was asked for waits for its write, which
is the only one of the slot that is held back, or it has come to its end. -/
inductive Phase.Standing (asked : Prop) : List (Write Submitter) → Phase → Prop
  | absent (h : ¬asked) : Standing asked [] .absent
  | waiting (h : asked) (w : Write Submitter) : Standing asked [w] (.waiting w)
  | reported (h : asked) : Standing asked [] .reported
  | lost (h : asked) : Standing asked [] (.lost none)

namespace Phase

variable {asked asked' : Prop} {ws : List (Write Submitter)} {p : Phase}

theorem Standing.congr (h : Standing asked ws p) (hasked : asked' ↔ asked) :
    Standing asked' ws p := by
  rw [propext hasked]
  exact h

theorem Standing.of_not_asked (h : Standing asked ws p) (hasked : ¬asked) :
    p = .absent ∧ ws = [] := by
  cases h with
  | absent => exact ⟨rfl, rfl⟩
  | waiting h | reported h | lost h => exact absurd h hasked

end Phase

namespace Node

open Phase

variable {l : Slot} {t : Turn}

theorem heldOf_work (n : Node) (t : Turn) (l : Slot) :
    (n.work t).store.heldOf l = n.store.heldOf l ++
      if n.store.held.isSome then (n.submitted t).filter fun w => w.token.slot? = some l
      else [] := by
  rw [Store.heldOf, Store.heldOf, Store.heldWrites, Store.heldWrites, held_work]
  cases n.store.held with
  | none => rfl
  | some queue => exact List.filter_append ..

theorem heldOf_work_of_ne (n : Node) (hne : t.slot ≠ l) :
    (n.work t).store.heldOf l = n.store.heldOf l := by
  have hnone : (n.submitted t).filter (fun w => w.token.slot? = some l) = [] := by
    rw [List.filter_eq_nil_iff]
    intro w hw
    obtain ⟨change, edges, hold, -, rfl⟩ := n.eq_write_of_submitted t hw
    have hslot : (t.write change edges hold).token.slot? = some t.slot := rfl
    simpa [hslot] using hne
  rw [heldOf_work, hnone, ite_self, List.append_nil]

/-- At the end of its turn a slot waits for its write or has come to its end. -/
theorem standing_work (n : Node) (t : Turn) (hnone : n.store.heldOf t.slot = []) :
    Standing True ((n.work t).store.heldOf t.slot) (n.after t) := by
  rw [heldOf_work, hnone, List.nil_append, after, submitted]
  cases n.verdict t with
  | refused e =>
    simp only [List.filter_nil, ite_self]
    exact .reported trivial
  | write change edges hold =>
    simp only [resting]
    by_cases hlost : n.losesNext = true
    · simp only [hlost, if_true, List.filter_nil, ite_self]
      exact .lost trivial
    · by_cases hheld : n.store.held.isSome = true
      · have hslot : (t.write change edges hold).token.slot? = some t.slot := rfl
        simp only [hlost, hheld, Bool.false_eq_true, if_false, if_true]
        rw [List.filter_cons_of_pos (by simpa using hslot), List.filter_nil]
        exact .waiting trivial _
      · simp only [hlost, hheld, Bool.false_eq_true, if_false]
        exact .reported trivial

/-! ### Requests -/

theorem strokesOfAll_append (n : Node) (ts ts' : List Turn) :
    n.strokesOfAll (ts ++ ts') = n.strokesOfAll ts ++ (n.workAll ts).strokesOfAll ts' := by
  induction ts generalizing n with
  | nil => rfl
  | cons t ts ih =>
    rw [List.cons_append, strokesOfAll, strokesOfAll, ih, List.append_assoc]
    rfl

theorem heldOf_workAll_of_ne (n : Node) {ts : List Turn} (hts : ∀ t ∈ ts, t.slot ≠ l) :
    (n.workAll ts).store.heldOf l = n.store.heldOf l := by
  induction ts generalizing n with
  | nil => rfl
  | cons t ts ih =>
    exact (ih (n.work t) fun t ht => hts t (List.mem_cons_of_mem _ ht)).trans
      (n.heldOf_work_of_ne (hts t (List.mem_cons_self ..)))

/-- Among the turns of a request there is one of each slot. -/
theorem leads_strokesOfAll (n : Node) {front rest : List Turn}
    (hfront : ∀ t' ∈ front, t'.slot ≠ t.slot) (hrest : ∀ t' ∈ rest, t'.slot ≠ t.slot)
    (hnone : n.store.heldOf t.slot = []) :
    ∃ p, Leads t.slot .asked (n.strokesOfAll (front ++ t :: rest)) p ∧
      Standing True ((n.workAll (front ++ t :: rest)).store.heldOf t.slot) p := by
  have hworkAll : n.workAll (front ++ t :: rest)
      = ((n.workAll front).work t).workAll rest := by
    simp only [workAll, List.foldl_append, List.foldl_cons]
  refine ⟨(n.workAll front).after t, ?_, ?_⟩
  · rw [strokesOfAll_append]
    exact (leads_of_within (n.isWithin_strokesOfAll hfront) _).append
      (((n.workAll front).leads_strokesOf t).append
        (leads_of_within (isWithin_strokesOfAll _ hrest) _))
  · rw [hworkAll, heldOf_workAll_of_ne _ hrest]
    exact standing_work _ t ((n.heldOf_workAll_of_ne hfront).trans hnone)

theorem store_opened (n : Node) (r : DeleteRequest) : (n.opened r).store = n.store :=
  (congrArg Node.store (n.quiet_opened r)).trans rfl

theorem store_failAll (n : Node) (request : Nat) (parts : List PartId) (code : ResultCode) :
    (n.failAll request parts code).store = n.store := by
  obtain ⟨requests, h⟩ := n.quiet_failAll request parts code
  exact (congrArg Node.store h).trans rfl

theorem leads_refusals {request : Nat} {part : PartId} {parts : List PartId}
    (hmem : part ∈ parts) (hnodup : parts.Nodup) (code : ResultCode) :
    Leads ⟨request, part⟩ .asked (parts.map fun p => .refuse ⟨request, p⟩ code) .reported := by
  obtain ⟨front, rest, rfl⟩ := List.append_of_mem hmem
  have hothers : ∀ ps : List PartId, part ∉ ps →
      ∀ σ ∈ ps.map fun p => Stroke.refuse ⟨request, p⟩ code, σ.IsWithin (· ≠ ⟨request, part⟩) := by
    intro ps hps σ hσ
    obtain ⟨p, hp, rfl⟩ := List.mem_map.1 hσ
    rintro l hslot rfl
    obtain rfl : p = part := congrArg Slot.part (Option.some.inj hslot)
    exact hps hp
  obtain ⟨-, hrest, hdisjoint⟩ := List.nodup_append.1 hnodup
  rw [List.map_append, List.map_cons]
  refine (leads_of_within (hothers front ?_) _).append
    (.cons (.fail code) (leads_of_within (hothers rest (List.nodup_cons.1 hrest).1) _))
  exact fun h => hdisjoint part h part (List.mem_cons_self ..) rfl

theorem ordered_keys (r : DeleteRequest) : r.parts.keys.Pairwise (· < ·) := by
  rw [OrderedMap.keys, List.pairwise_map]
  exact r.ascending

theorem nodup_keys (r : DeleteRequest) : r.parts.keys.Nodup :=
  (ordered_keys r).imp UInt32.ne_of_lt

/-- A request passes a slot by that it does not ask for. -/
theorem leads_strokesOfRequest_of_not_asked (n : Node) {r : DeleteRequest}
    (hasked : n.requests.length = l.request → l.part ∉ r.parts.keys) (p : Phase) :
    Leads l p (n.strokesOfRequest r) p ∧
      (n.process r).2.store.heldOf l = n.store.heldOf l := by
  have harrive : (Stroke.arrive n.requests.length r).IsElsewhere l := hasked
  have hslot : ∀ part ∈ r.parts.keys, (⟨n.requests.length, part⟩ : Slot) ≠ l := by
    rintro part hpart rfl
    exact hasked rfl hpart
  refine ⟨((Leads.cons (.elsewhere harrive) (leads_notes _ p)).note _).append
    (leads_of_within (n.isWithin_strokesOfParts hslot) p), ?_⟩
  rw [process_eq]
  cases hturns : n.turns r with
  | error e => simp only [store_failAll, store_opened]
  | ok ts =>
    refine (heldOf_workAll_of_ne _ ?_).trans (congrArg (Store.heldOf · l) (n.store_opened r))
    intro t ht
    obtain ⟨hrequest, -, hpart⟩ := mem_turns hturns ht
    rw [Turn.slot, hrequest]
    exact hslot _ (List.mem_map_of_mem hpart)

/-- A request leads every slot that it asks for to where it waits for its write or ends. -/
theorem leads_strokesOfRequest (n : Node) {r : DeleteRequest}
    (hrequest : l.request = n.requests.length) (hpart : l.part ∈ r.parts.keys)
    (hnone : n.store.heldOf l = []) :
    ∃ p, Leads l .absent (n.strokesOfRequest r) p ∧
      Standing True ((n.process r).2.store.heldOf l) p := by
  obtain ⟨request, part⟩ := l
  obtain rfl : request = n.requests.length := hrequest
  have harrival : Leads ⟨n.requests.length, part⟩ .absent (n.strokesOfArrival r) .asked :=
    (Leads.cons (.arrive hpart) (leads_notes _ _)).note _
  rw [strokesOfRequest, strokesOfParts, process_eq]
  cases hturns : n.turns r with
  | error e =>
    refine ⟨.reported, harrival.append (leads_refusals hpart (nodup_keys r) e.code), ?_⟩
    simp only [store_failAll, store_opened, hnone]
    exact .reported trivial
  | ok ts =>
    obtain ⟨⟨p, edges⟩, hmem, rfl⟩ := List.mem_map.1 hpart
    obtain ⟨front, rest, vidLen, indexes, rfl, -, -, hbelow, habove⟩ := turns_split hturns hmem
    have hne : ∀ t' : Turn, t'.place.part ≠ p → t'.slot ≠ ⟨n.requests.length, p⟩ :=
      fun t' hne h => hne (congrArg Slot.part h)
    obtain ⟨q, hleads, hstanding⟩ := (n.opened r).leads_strokesOfAll
      (t := ⟨n.requests.length, ⟨r.space, p⟩, vidLen, indexes, edges⟩)
      (fun t' ht' => hne t' (UInt32.ne_of_lt (hbelow t' ht')))
      (fun t' ht' => hne t' (UInt32.ne_of_lt (habove t' ht')).symm)
      ((congrArg (Store.heldOf · _) (n.store_opened r)).trans hnone)
    exact ⟨q, harrival.append hleads, hstanding⟩

/-! ### The end of a pause -/

theorem ne_of_slot {token : Submitter} (hne : token.slot? ≠ some l) :
    ∀ l', token.slot? = some l' → l' ≠ l := by
  rintro l' hslot rfl
  exact hne hslot

theorem leads_ofWrites {front rest : List (Write Submitter)} {w : Write Submitter}
    (hfront : ∀ w' ∈ front, w'.token.slot? ≠ some l) (hslot : w.token.slot? = some l)
    (hrest : ∀ w' ∈ rest, w'.token.slot? ≠ some l) (s : Store Submitter) :
    Leads l (.waiting w) (Stroke.ofWrites s (front ++ w :: rest)) .reported := by
  induction front generalizing s with
  | nil =>
    exact (leads_apply hslot s).append
      (leads_of_within (Stroke.isWithin_ofWrites (fun w' hw' => ne_of_slot (hrest w' hw')) _) _)
  | cons w' front ih =>
    have hw' : ∀ l', w'.token.slot? = some l' → l' ≠ l := ne_of_slot (hfront w' (List.mem_cons_self ..))
    refine (leads_of_within (h := .apply w' :: Stroke.ofCompletion (s.apply w').2) ?_ _).append
      (ih (fun w hw => hfront w (List.mem_cons_of_mem _ hw)) _)
    intro σ hσ
    rcases List.mem_cons.1 hσ with rfl | hσ
    · exact hw'
    · exact Stroke.isWithin_ofCompletion (by rwa [s.apply_token w']) σ hσ

/-- At the end of a pause every slot that waits comes to its end. -/
theorem leads_strokesOfResume (n : Node) {asked : Prop} {p : Phase}
    (h : Standing asked (n.store.heldOf l) p) :
    ∃ q, Leads l p n.strokesOfResume q ∧ Standing asked (n.resume.2.store.heldOf l) q := by
  have hheld : n.resume.2.store.heldOf l = [] := by
    rw [Store.heldOf, Store.heldWrites, held_resume]
    rfl
  have hunhold : Stroke.unhold.IsElsewhere l := (Option.some_ne_none _).symm
  rw [hheld, strokesOfResume]
  generalize hws : n.store.heldOf l = ws at h
  rw [Store.heldOf] at hws
  have hnone : ws = [] → ∀ w ∈ n.store.heldWrites, ∀ l', w.token.slot? = some l' → l' ≠ l := by
    rintro rfl w hw
    exact ne_of_slot (by simpa using List.filter_eq_nil_iff.1 hws w hw)
  cases h with
  | absent h =>
    exact ⟨_, .cons (.elsewhere hunhold)
      (leads_of_within (Stroke.isWithin_ofWrites (hnone rfl) _) _), .absent h⟩
  | reported h =>
    exact ⟨_, .cons (.elsewhere hunhold)
      (leads_of_within (Stroke.isWithin_ofWrites (hnone rfl) _) _), .reported h⟩
  | lost h =>
    exact ⟨_, .cons (.elsewhere hunhold)
      (leads_of_within (Stroke.isWithin_ofWrites (hnone rfl) _) _), .lost h⟩
  | waiting h w =>
    refine ⟨.reported, .cons (.elsewhere hunhold) ?_, .reported h⟩
    -- the write of the slot is the only one among those held back
    obtain ⟨front, rest, heq, hfront, hw, hrest⟩ := List.filter_eq_cons_iff.1 hws
    have hslot : w.token.slot? = some l := by simpa using hw
    have hothers : ∀ w' ∈ rest, w'.token.slot? ≠ some l := fun w' hw' => by
      simpa using List.filter_eq_nil_iff.1 hrest w' hw'
    rw [heq]
    exact leads_ofWrites (fun w' hw' => by simpa using hfront w' hw') hslot hothers _

end Node

/-! ### Actions and runs -/

namespace Session

open Phase

/-- Some request asks for a slot. -/
def Asks (s : Session) (l : Slot) : Prop :=
  ∃ r, s.asked[l.request]? = some r ∧ l.part ∈ r.parts.keys

/-- The slots of a session have led their lives in the strokes so far. -/
structure Lives (s : Session) (h : List Stroke) : Prop where
  numbered : s.node.requests.length = s.asked.length
  standing : ∀ l, ∃ p, Leads l .absent h p ∧ Standing (s.Asks l) (s.node.store.heldOf l) p

variable {s : Session} {h : List Stroke}

theorem lives_start (options : Options) (catalog : Catalog) (clock : Nat → UInt64) :
    (start options catalog clock).Lives [] := by
  refine ⟨rfl, fun l => ⟨.absent, .nil _, .absent ?_⟩⟩
  rintro ⟨r, hr, -⟩
  simp [start] at hr

/-- What concerns no slot passes all of them by. -/
theorem Lives.pass (hlives : s.Lives h) {a : Action}
    (hnumbers : (s.act a).node.requests.length = s.node.requests.length)
    (hasked : (s.act a).asked = s.asked)
    (hheld : ∀ l, (s.act a).node.store.heldOf l = s.node.store.heldOf l)
    (hpass : ∀ l p, Leads l p (s.strokes a) p) :
    (s.act a).Lives (h ++ s.strokes a) := by
  refine ⟨by rw [hnumbers, hasked, hlives.numbered], fun l => ?_⟩
  obtain ⟨p, hleads, hstanding⟩ := hlives.standing l
  refine ⟨p, hleads.append (hpass l p), ?_⟩
  rw [hheld l, Asks, hasked]
  exact hstanding

/-- What a driver does besides requests and writes concerns no slot. -/
theorem act_aside (s : Session) {a : Action} (haside : a.isAside = true) :
    (s.act a).node.requests = s.node.requests ∧ (s.act a).asked = s.asked ∧
      (s.act a).node.store.heldWrites = s.node.store.heldWrites ∧
      (s.act a).node.store.submissions = s.node.store.submissions ∧
      (s.act a).node.counters = s.node.counters ∧
      (s.act a).node.sequencer = s.node.sequencer := by
  cases a with
  | delete r | deleteDeferred r | resume | submit name place change =>
    simp [Action.isAside] at haside
  | addPart place =>
    have hstore : (s.node.store.addPart place).heldWrites = s.node.store.heldWrites ∧
        (s.node.store.addPart place).submissions = s.node.store.submissions := by
      rw [Store.addPart]
      split <;> exact ⟨rfl, rfl⟩
    exact ⟨rfl, rfl, hstore.1, hstore.2, rfl, rfl⟩
  | put place key value =>
    rw [act, Store.put]
    cases s.node.store.contents place <;> exact ⟨rfl, rfl, rfl, rfl, rfl, rfl⟩
  | lock edges =>
    rw [act, Node.claim]
    cases s.node.locks.claim edges <;> exact ⟨rfl, rfl, rfl, rfl, rfl, rfl⟩
  | unlock i =>
    rw [act]
    cases s.guards[i]? <;> exact ⟨rfl, rfl, rfl, rfl, rfl, rfl⟩
  | untrack =>
    rw [act]
    by_cases hnone : s.tracked = 0
    · rw [if_pos hnone]
      exact ⟨rfl, rfl, rfl, rfl, rfl, rfl⟩
    · rw [if_neg hnone]
      exact ⟨rfl, rfl, rfl, rfl, rfl, rfl⟩
  | _ => exact ⟨rfl, rfl, rfl, rfl, rfl, rfl⟩

theorem lives_aside (hlives : s.Lives h) {a : Action} (haside : a.isAside = true)
    (hstrokes : s.strokes a = [.drive a]) : (s.act a).Lives (h ++ s.strokes a) := by
  obtain ⟨hrequests, hasked, hheld, -⟩ := s.act_aside haside
  refine hlives.pass (congrArg List.length hrequests) hasked (Store.heldOf_congr hheld) ?_
  intro l p
  rw [hstrokes]
  exact .cons (.elsewhere haside) (.nil p)

theorem lives_submit (hlives : s.Lives h) (name : String) (place : Place) (change : Change) :
    (s.act (.submit name place change)).Lives (h ++ s.strokes (.submit name place change)) := by
  have hquiet := s.node.quiet_submit name place change
  refine hlives.pass (congrArg (·.requests.length) hquiet) rfl ?_ ?_
  · intro l
    refine (congrArg (·.store.heldOf l) hquiet).trans ?_
    show Store.heldOf (s.node.store.submit ⟨place, change, .outside name⟩).1 l = _
    rw [Store.heldOf, Store.heldOf, Store.heldWrites, Store.heldWrites, Store.held_submit]
    cases s.node.store.held with
    | none => rfl
    | some queue =>
      refine (List.filter_append ..).trans ?_
      exact List.append_nil _
  · intro l p
    have houtside : ∀ l', (⟨place, change, .outside name⟩ : Write Submitter).token.slot? = some l' →
        l' ≠ l := fun _ h => absurd h (Option.some_ne_none _).symm
    exact leads_of_within (Stroke.isWithin_ofSubmit houtside _) p

theorem asks_append {r : DeleteRequest} {l : Slot} {node : Node} :
    Asks { s with node := node, asked := s.asked ++ [r] } l ↔
      s.Asks l ∨ l.request = s.asked.length ∧ l.part ∈ r.parts.keys := by
  simp only [Asks]
  rcases Nat.lt_trichotomy l.request s.asked.length with hlt | heq | hgt
  · rw [List.getElem?_append_left hlt]
    simp [Nat.ne_of_lt hlt]
  · rw [heq, List.getElem?_append_right (Nat.le_refl _), Nat.sub_self]
    simp
  · have hnone : (s.asked ++ [r])[l.request]? = none := by
      rw [List.getElem?_eq_none_iff, List.length_append, List.length_singleton]
      omega
    have hnone' : s.asked[l.request]? = none := List.getElem?_eq_none_iff.2 (Nat.le_of_lt hgt)
    rw [hnone, hnone']
    simp [Nat.ne_of_gt hgt]

theorem lives_request (hlives : s.Lives h) (r : DeleteRequest) :
    Lives { s with node := (s.node.process r).2, asked := s.asked ++ [r] }
      (h ++ s.node.strokesOfRequest r) := by
  refine ⟨?_, fun l => ?_⟩
  · show (s.node.process r).2.requests.length = (s.asked ++ [r]).length
    rw [s.length_requests_process r, hlives.numbered, List.length_append]
    rfl
  obtain ⟨p, hleads, hstanding⟩ := hlives.standing l
  by_cases hasked : l.request = s.node.requests.length ∧ l.part ∈ r.parts.keys
  · -- the slot is one of the new request, so nobody has asked for it before
    obtain ⟨hrequest, hpart⟩ := hasked
    have hnew : ¬s.Asks l := by
      rintro ⟨r', hr', -⟩
      rw [hrequest, hlives.numbered, List.getElem?_eq_none_iff.2 (Nat.le_refl _)] at hr'
      simp at hr'
    obtain ⟨rfl, hnone⟩ := hstanding.of_not_asked hnew
    obtain ⟨q, hleads', hstanding'⟩ := s.node.leads_strokesOfRequest hrequest hpart hnone
    refine ⟨q, hleads.append hleads', hstanding'.congr ?_⟩
    rw [asks_append, ← hlives.numbered]
    exact iff_true_intro (.inr ⟨hrequest, hpart⟩)
  · obtain ⟨hleads', hheld⟩ := s.node.leads_strokesOfRequest_of_not_asked (l := l) (r := r)
      (fun hrequest hpart => hasked ⟨hrequest.symm, hpart⟩) p
    refine ⟨p, hleads.append hleads', ?_⟩
    rw [hheld]
    refine hstanding.congr ?_
    rw [asks_append, ← hlives.numbered]
    exact or_iff_left hasked

theorem lives_resume (hlives : s.Lives h) :
    Lives { s with node := s.node.resume.2 } (h ++ s.node.strokesOfResume) := by
  refine ⟨(Node.length_requests_resume _).trans hlives.numbered, fun l => ?_⟩
  obtain ⟨p, hleads, hstanding⟩ := hlives.standing l
  obtain ⟨q, hleads', hstanding'⟩ := s.node.leads_strokesOfResume hstanding
  exact ⟨q, hleads.append hleads', hstanding'⟩

theorem lives_act (hlives : s.Lives h) (a : Action) : (s.act a).Lives (h ++ s.strokes a) := by
  cases a with
  | delete r => exact lives_request hlives r
  | deleteDeferred r =>
    rw [act, strokes, Node.processDeferred]
    by_cases hheld : s.node.store.held.isSome = true
    · rw [if_pos hheld, if_pos hheld]
      exact lives_request hlives r
    · rw [if_neg hheld, if_neg hheld]
      have hpaused : Lives { s with node := s.node.pause } (h ++ [.drive .pause]) :=
        lives_aside (a := .pause) hlives rfl rfl
      have hresumed := lives_resume (lives_request hpaused r)
      simpa using hresumed
  | resume => exact lives_resume hlives
  | submit name place change => exact lives_submit hlives name place change
  | _ => exact lives_aside hlives rfl rfl

theorem lives_run (hlives : s.Lives h) (actions : List Action) :
    (s.run actions).Lives (h ++ s.timeline actions) := by
  induction actions generalizing s h with
  | nil => rwa [timeline, List.append_nil]
  | cons a actions ih =>
    rw [timeline, ← List.append_assoc]
    exact ih (lives_act hlives a)

/-- Every slot has led some life so far. -/
def Orderly (h : List Stroke) : Prop := ∀ l, ∃ p, Leads l .absent h p

theorem Orderly.of_append {h' : List Stroke} (horderly : Orderly (h ++ h')) : Orderly h := by
  intro l
  obtain ⟨q, hleads⟩ := horderly l
  obtain ⟨p, hp, -⟩ := leads_append_iff.1 hleads
  exact ⟨p, hp⟩

theorem Lives.orderly (hlives : s.Lives h) : Orderly h := by
  intro l
  obtain ⟨p, hleads, -⟩ := hlives.standing l
  exact ⟨p, hleads⟩

/-- So it has at every moment of a run. -/
theorem orderly_timeline (hlives : s.Lives []) {actions : List Action}
    {before after : List Stroke} (hsplit : s.timeline actions = before ++ after) :
    Orderly before := by
  have horderly := (lives_run hlives actions).orderly
  rw [List.nil_append, hsplit] at horderly
  exact horderly.of_append

end Session

end EdgeDeletion
