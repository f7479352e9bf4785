/-
Draining.

Index states are looked up while a slot is counted as in flight, and it is counted until the
store is done with its write.  So when the count is zero, all that was looked up before
belongs to writes that are over:

* `fromTurn_timeline` — a write is submitted in the turn of its slot;
* `normal_of_remove`, `rebuilding_of_put` — what a write does to an index follows from the
  state that the index had at the turn;
* `draining_isolates` — what is applied after the count was zero follows from the states that
  the indexes have from then on.
-/
import EdgeDeletion.Proofs.Completeness
import EdgeDeletion.Proofs.Course
import EdgeDeletion.Proofs.Moments

namespace EdgeDeletion

namespace Phase

variable {l : Slot} {p q : Phase} {σ : Stroke} {h : List Stroke}

/-- Whether no stroke of a slot was done so far. -/
def isFresh : Phase → Bool
  | .absent | .asked => true
  | _ => false

theorem Next.fresh (hnext : Next l p σ q) (hq : q.isFresh = true) :
    p.isFresh = true ∧ σ.slot? ≠ some l := by
  cases hnext with
  | elsewhere helse => exact ⟨hq, helse.slot?_ne⟩
  | arrive => exact ⟨rfl, nofun⟩
  | _ => simp [isFresh] at hq

theorem Leads.fresh (hleads : Leads l p h q) (hq : q.isFresh = true) :
    p.isFresh = true ∧ ∀ σ ∈ h, σ.slot? ≠ some l := by
  induction hleads with
  | nil => exact ⟨hq, by simp⟩
  | cons hnext _ ih =>
    obtain ⟨hfresh, hnone⟩ := ih hq
    obtain ⟨hfresh, hfirst⟩ := hnext.fresh hfresh
    exact ⟨hfresh, List.forall_mem_cons.2 ⟨hfirst, hnone⟩⟩

theorem Next.counted_or_fresh (hnext : Next l p σ q)
    (hq : q.isCounted = true ∨ q.isFresh = true) : p.isCounted = true ∨ p.isFresh = true := by
  cases hnext with
  | elsewhere => exact hq
  | arrive | fail | track | submitPlain | losePlain => exact .inr rfl
  | apply => exact hq.imp id nofun
  | report => exact hq.imp nofun nofun
  | _ => exact .inl rfl

/-- A write that keeps something is applied for a slot that is counted already or has not begun. -/
theorem Leads.counted_or_fresh (hleads : Leads l p h q) {w : Write Submitter}
    (hmem : .apply w ∈ h) (hslot : w.token.slot? = some l) (hhold : w.token.hold?.isSome = true) :
    p.isCounted = true ∨ p.isFresh = true := by
  induction hleads with
  | nil => simp at hmem
  | cons hnext _ ih =>
    rcases List.mem_cons.1 hmem with rfl | hmem
    · cases hnext with
      | elsewhere helse => exact absurd hslot helse.slot?_ne
      | apply => exact .inl hhold
    · exact hnext.counted_or_fresh (ih hmem)

/-- A write is submitted before it is applied. -/
theorem Leads.submitted (hleads : Leads l p h q) {w : Write Submitter} (hmem : .apply w ∈ h)
    (hslot : w.token.slot? = some l) : p = .waiting w ∨ .submit w ∈ h := by
  induction hleads with
  | nil => simp at hmem
  | @cons p q r σ h hnext _ ih =>
    rcases List.mem_cons.1 hmem with rfl | hmem
    · cases hnext with
      | elsewhere helse => exact absurd hslot helse.slot?_ne
      | apply => exact .inl rfl
    · rcases ih hmem with hwaiting | hsubmit
      · cases hnext with
        | elsewhere => exact .inl hwaiting
        | submitPlain | submit =>
          obtain rfl := Phase.waiting.inj hwaiting
          exact .inr (List.mem_cons_self ..)
        | _ => simp at hwaiting
      · exact .inr (List.mem_cons_of_mem _ hsubmit)

end Phase

/-! ### Where writes come from -/

namespace Stroke

theorem eq_of_mem_ofSubmit {s : Store Submitter} {w w' : Write Submitter}
    (hmem : .submit w ∈ ofSubmit s w') : w = w' := by
  rcases List.mem_cons.1 hmem with heq | hmem
  · exact Stroke.submit.inj heq
  · by_cases hheld : s.held.isSome = true
    · simp [hheld] at hmem
    · rw [if_neg hheld] at hmem
      exact absurd (isEnding_ofWrites _ _ _ hmem) Bool.false_ne_true

end Stroke

namespace Node

variable {n : Node} {t : Turn} {w : Write Submitter}

/-- What is submitted in the strokes of a turn is the write of the turn. -/
theorem mem_submitted_of_mem_strokesOf (hmem : .submit w ∈ n.strokesOf t) :
    w ∈ n.submitted t := by
  obtain ⟨front, spent, back, hfront, hback, hspent, heq⟩ := n.strokesOf_eq t
  have hcalm : ∀ {h : List Stroke}, (∀ σ ∈ h, σ.isCalm = true) → .submit w ∉ h :=
    fun hcalm hmem => absurd (hcalm _ hmem) nofun
  have hnone : .submit w ∉ spent := by rcases hspent with rfl | rfl <;> simp
  rw [heq] at hmem
  simp only [List.mem_append, hcalm hfront, hcalm hback, hnone, false_or, List.mem_flatMap] at hmem
  obtain ⟨w', hw', hmem⟩ := hmem
  rwa [Stroke.eq_of_mem_ofSubmit hmem]

theorem mem_strokesOfAll {ts : List Turn} {n : Node} {σ : Stroke} (hmem : σ ∈ n.strokesOfAll ts) :
    ∃ front t rest, ts = front ++ t :: rest ∧ σ ∈ (n.workAll front).strokesOf t := by
  induction ts generalizing n with
  | nil => simp [strokesOfAll] at hmem
  | cons t ts ih =>
    rcases List.mem_append.1 hmem with hmem | hmem
    · exact ⟨[], t, ts, rfl, hmem⟩
    · obtain ⟨front, t', rest, hts, hmem⟩ := ih hmem
      exact ⟨t :: front, t', rest, congrArg (t :: ·) hts, hmem⟩

end Node

namespace Session

variable {s : Session} {h h' : List Stroke} {w : Write Submitter}

/-- A write was submitted in the turn of its slot. -/
def FromTurn (s : Session) (h : List Stroke) (w : Write Submitter) : Prop :=
  ∃ front t rest, h = front ++ ((s.strikeAll front).node.strokesOf t ++ rest) ∧
    w ∈ (s.strikeAll front).node.submitted t

theorem FromTurn.append (hfrom : s.FromTurn h w) (h' : List Stroke) :
    s.FromTurn (h ++ h') w := by
  obtain ⟨front, t, rest, rfl, hw⟩ := hfrom
  exact ⟨front, t, rest ++ h', by simp, hw⟩

theorem FromTurn.prepend (hfrom : (s.strikeAll h').FromTurn h w) : s.FromTurn (h' ++ h) w := by
  obtain ⟨front, t, rest, rfl, hw⟩ := hfrom
  rw [← strikeAll_append] at hw ⊢
  exact ⟨h' ++ front, t, rest, by rw [List.append_assoc], hw⟩

theorem fromTurn_strokesOfAll {s : Session} {ts : List Turn}
    (hmem : .submit w ∈ s.node.strokesOfAll ts) : s.FromTurn (s.node.strokesOfAll ts) w := by
  obtain ⟨front, t, rest, rfl, hturn⟩ := Node.mem_strokesOfAll hmem
  have hnode : (s.strikeAll (s.node.strokesOfAll front)).node = s.node.workAll front :=
    congrArg (·.node) (s.strikeAll_strokesOfAll front)
  rw [Node.strokesOfAll_append, Node.strokesOfAll]
  refine ⟨s.node.strokesOfAll front, t, ((s.node.workAll front).work t).strokesOfAll rest, ?_, ?_⟩
  · rw [hnode]
  · rw [hnode]
    exact Node.mem_submitted_of_mem_strokesOf hturn

theorem fromTurn_request {s : Session} {r : DeleteRequest}
    (hmem : .submit w ∈ s.node.strokesOfRequest r) : s.FromTurn (s.node.strokesOfRequest r) w := by
  rw [Node.strokesOfRequest] at hmem ⊢
  have hparts : .submit w ∈ s.node.strokesOfParts r := by
    simpa [Node.strokesOfArrival] using hmem
  refine FromTurn.prepend ?_
  rw [strikeAll_strokesOfArrival]
  rw [Node.strokesOfParts] at hparts ⊢
  cases hturns : s.node.turns r with
  | error e => simp [hturns] at hparts
  | ok ts =>
    simp only [hturns] at hparts ⊢
    exact fromTurn_strokesOfAll (s := { s with node := s.node.opened r, asked := _ }) hparts

theorem submit_notMem_strokesOfResume (n : Node) (w : Write Submitter) :
    .submit w ∉ n.strokesOfResume := by
  intro hmem
  rcases List.mem_cons.1 hmem with heq | hmem
  · simp at heq
  · exact absurd (Stroke.isEnding_ofWrites _ _ _ hmem) Bool.false_ne_true

theorem fromTurn_strokes {s : Session} {a : Action} (hmem : .submit w ∈ s.strokes a)
    (hslot : w.token.slot?.isSome = true) : s.FromTurn (s.strokes a) w := by
  cases a with
  | delete r => exact fromTurn_request hmem
  | deleteDeferred r =>
    rw [strokes] at hmem ⊢
    by_cases hheld : s.node.store.held.isSome = true
    · rw [if_pos hheld] at hmem ⊢
      exact fromTurn_request hmem
    · rw [if_neg hheld] at hmem ⊢
      simp only [List.mem_cons, List.mem_append, reduceCtorEq, false_or,
        submit_notMem_strokesOfResume, or_false] at hmem
      have hfrom : (s.strikeAll [.drive .pause]).FromTurn (s.node.pause.strokesOfRequest r) w :=
        fromTurn_request (s := { s with node := s.node.pause }) hmem
      exact (hfrom.append _).prepend
  | resume => exact absurd hmem (submit_notMem_strokesOfResume _ _)
  | submit name place change =>
    obtain rfl := Stroke.eq_of_mem_ofSubmit hmem
    simp [Submitter.slot?] at hslot
  | _ => simp [strokes] at hmem

/-- Every write that some slot submits in a run is submitted in the turn of the slot. -/
theorem fromTurn_timeline {s : Session} {actions : List Action}
    (hmem : .submit w ∈ s.timeline actions) (hslot : w.token.slot?.isSome = true) :
    s.FromTurn (s.timeline actions) w := by
  induction actions generalizing s with
  | nil => simp [timeline] at hmem
  | cons a actions ih =>
    rw [timeline] at hmem ⊢
    rcases List.mem_append.1 hmem with hmem | hmem
    · exact (fromTurn_strokes hmem hslot).append _
    · have hfrom := ih hmem
      rw [← strikeAll_strokes] at hfrom
      rw [← strikeAll_strokes]
      exact hfrom.prepend

end Session

/-! ### What a write does to an index -/

theorem Step.remove_mem_toOps {part : PartId} {steps : List Step} {q : Sequencer} {key : Bytes}
    (hmem : .remove key ∈ (toOps part q steps).1) : key ∈ removedKeys steps := by
  induction steps generalizing q with
  | nil => simp [toOps] at hmem
  | cons step steps ih =>
    cases step with
    | deferral key' =>
      rcases List.mem_cons.1 hmem with heq | hmem
      · simp at heq
      · exact ih hmem
    | _ =>
      rcases List.mem_cons.1 hmem with heq | hmem
      · rw [BatchOp.remove.inj heq]
        exact List.mem_cons_self ..
      · exact List.mem_cons_of_mem _ (ih hmem)

theorem Step.put_mem_toOps {part : PartId} {steps : List Step} {q : Sequencer} {key value : Bytes}
    (hmem : .put key value ∈ (toOps part q steps).1) : value ∈ deferredKeys steps := by
  induction steps generalizing q with
  | nil => simp [toOps] at hmem
  | cons step steps ih =>
    cases step with
    | deferral key' =>
      rcases List.mem_cons.1 hmem with heq | hmem
      · rw [(BatchOp.put.inj heq).2]
        exact List.mem_cons_self ..
      · exact List.mem_cons_of_mem _ (ih hmem)
    | _ =>
      rcases List.mem_cons.1 hmem with heq | hmem
      · simp at heq
      · exact ih hmem

namespace Node

variable {n : Node} {t : Turn} {w : Write Submitter} {ops : List BatchOp} {index : IndexId}

/-- The operations of the write of a turn with a plan are those of the plan. -/
theorem ops_of_submitted (hw : w ∈ n.submitted t) (hops : Store.opsOf w.change = .ok ops) :
    (t.indexes.isEmpty = true ∧
      ops = (t.edges.map (Key.record t.vidLen t.place.part)).map .remove) ∨
    (t.indexes.isEmpty = false ∧ ops = (n.opsOf t).1 ∧
      (n.planOf t).steps = n.stepsOf t (n.store.stored t.place) ∧
      ∀ e ∈ t.edges, ((n.scene t).keysPlan e
        ((n.scene t).found (n.store.stored t.place) e)).error = none) := by
  obtain ⟨change, edges, hold, hverdict, rfl⟩ := n.eq_write_of_submitted t hw
  rcases of_verdict_write hverdict with ⟨hindexes, -, rfl, -⟩ | ⟨hindexes, herror, rfl, -⟩
  · exact .inl ⟨hindexes, (Except.ok.inj hops).symm⟩
  · obtain ⟨hplan, hsteps⟩ := Scene.plan_stored herror
    exact .inr ⟨hindexes, Batch.eq_of_decode_encode hops, hsteps, fun e he => (hplan e he).2⟩

/-- A write removes entries just of indexes whose state was normal at its turn. -/
theorem normal_of_remove (hw : w ∈ n.submitted t) (hops : Store.opsOf w.change = .ok ops)
    {key : Bytes} (hkey : .remove key ∈ ops) (hpre : Key.indexPrefix t.place.part index <+: key) :
    n.markers.state t.place index = .normal := by
  have htag := Key.head?_of_indexPrefix hpre
  rcases ops_of_submitted hw hops with ⟨-, rfl⟩ | ⟨-, rfl, hsteps, hplan⟩
  · -- what is removed without a plan are records
    simp only [List.map_map, List.mem_map, Function.comp_apply, BatchOp.remove.injEq] at hkey
    obtain ⟨e, -, rfl⟩ := hkey
    rw [Key.head?_record] at htag
    exact absurd htag (by decide)
  · have hremoved := Step.remove_mem_toOps hkey
    rw [hsteps, stepsOf] at hremoved
    obtain ⟨e, he, hbelow | hentry⟩ := Scene.of_mem_removedKeys hplan hremoved
    · rw [Key.head?_of_edgePrefix hbelow] at htag
      exact absurd htag (by decide)
    · obtain ⟨raw, row, i, image, -, -, -, hstate, -, -, rfl⟩ := Scene.mem_indexKeys.1 hentry
      rw [(Key.of_indexPrefix_entry hpre).2]
      exact hstate

/-- A write defers removals just from indexes that were being rebuilt at its turn. -/
theorem rebuilding_of_put (hw : w ∈ n.submitted t) (hops : Store.opsOf w.change = .ok ops)
    {key value : Bytes} (hput : .put key value ∈ ops)
    (hpre : Key.indexPrefix t.place.part index <+: value) :
    n.markers.state t.place index = .rebuilding := by
  rcases ops_of_submitted hw hops with ⟨-, rfl⟩ | ⟨-, rfl, hsteps, hplan⟩
  · simp at hput
  · have hdeferred := Step.put_mem_toOps hput
    rw [hsteps, stepsOf] at hdeferred
    obtain ⟨e, he, hentry⟩ := Scene.of_mem_deferredKeys hplan hdeferred
    obtain ⟨raw, row, i, image, -, -, -, hstate, -, -, rfl⟩ := Scene.mem_indexKeys.1 hentry
    rw [(Key.of_indexPrefix_entry hpre).2]
    exact hstate

end Node

/-! ### Writes after the count was zero -/

namespace Node

variable {n : Node} {t : Turn} {w : Write Submitter}

theorem isEmpty_indexes_of_submitted (hw : w ∈ n.submitted t) :
    t.indexes.isEmpty = w.token.hold?.isNone := by
  obtain ⟨change, edges, hold, hverdict, rfl⟩ := n.eq_write_of_submitted t hw
  rcases of_verdict_write hverdict with ⟨hindexes, -, -, rfl⟩ | ⟨hindexes, -, -, _, rfl, -⟩
  · exact hindexes
  · exact hindexes

theorem slot?_of_submitted (hw : w ∈ n.submitted t) : w.token.slot? = some t.slot := by
  obtain ⟨change, edges, hold, -, rfl⟩ := n.eq_write_of_submitted t hw
  rfl

theorem place_of_submitted (hw : w ∈ n.submitted t) : w.place = t.place := by
  obtain ⟨change, edges, hold, -, rfl⟩ := n.eq_write_of_submitted t hw
  rfl

end Node

namespace Session

open Phase

variable {s : Session} {actions : List Action} {before after : List Stroke} {w : Write Submitter}
  {l : Slot}

/-- A write that is applied was submitted in a turn of the run. -/
theorem fromTurn_of_apply (horderly : Orderly (s.timeline actions))
    (hmem : .apply w ∈ s.timeline actions) (hslot : w.token.slot? = some l) :
    s.FromTurn (s.timeline actions) w := by
  obtain ⟨q, hleads⟩ := horderly l
  rcases hleads.submitted hmem hslot with hwaiting | hsubmit
  · simp at hwaiting
  · exact fromTurn_timeline hsubmit (by rw [hslot]; rfl)

/-- When nothing is in flight, the turn of an index-aware write that is applied later has not
begun. -/
theorem of_drained (hstart : s.node.inflight = s.tracked)
    (horderly : Orderly (s.timeline actions)) (hsplit : s.timeline actions = before ++ after)
    (hdrained : (s.strikeAll before).node.inflight = 0) (hmem : .apply w ∈ after)
    (hslot : w.token.slot? = some l) (hhold : w.token.hold?.isSome = true) :
    (∀ σ ∈ before, σ.slot? ≠ some l) ∧ (s.strikeAll before).FromTurn after w := by
  obtain ⟨q, hleads⟩ := horderly l
  rw [hsplit] at hleads
  obtain ⟨p, hbefore, hafter⟩ := leads_append_iff.1 hleads
  have horderly' : Orderly before := (hsplit ▸ horderly).of_append
  -- the slot is not counted, so none of its strokes was done
  have hfresh : p.isFresh = true := by
    rcases hafter.counted_or_fresh hmem hslot hhold with hcounted | hfresh
    · rw [not_counted_of_drained hstart horderly' hdrained hbefore] at hcounted
      exact absurd hcounted nofun
    · exact hfresh
  have hnone := (hbefore.fresh hfresh).2
  refine ⟨hnone, ?_⟩
  obtain ⟨front, t, rest, htimeline, hw⟩ := fromTurn_of_apply horderly
    (by rw [hsplit]; exact List.mem_append_right _ hmem) hslot
  obtain rfl : t.slot = l := Option.some.inj ((Node.slot?_of_submitted hw).symm.trans hslot)
  have hindexes : t.indexes.isEmpty = false := by
    rw [Node.isEmpty_indexes_of_submitted hw]
    simpa using hhold
  -- so the turn, which starts with counting the slot, lies after the moment
  rw [hsplit] at htimeline
  rcases List.append_eq_append_iff.1 htimeline with ⟨mid, rfl, hrest⟩ | ⟨mid, rfl, hrest⟩
  · rw [strikeAll_append] at hrest hw
    exact ⟨mid, t, rest, hrest, hw⟩
  · rw [Node.strokesOf, hindexes] at hrest
    cases mid with
    | nil =>
      rw [List.append_nil]
      refine ⟨[], t, rest, ?_, hw⟩
      rw [Node.strokesOf, hindexes]
      exact hrest.symm
    | cons σ mid =>
      have hσ : Stroke.track t.slot = σ := (List.cons.inj hrest).1
      exact absurd rfl (hnone (.track t.slot) (by rw [hσ]; simp))

/-- A write without a plan neither removes index entries nor defers their removal. -/
theorem not_indexed_of_plain {n : Node} {t : Turn} (hw : w ∈ n.submitted t)
    (hhold : w.token.hold?.isSome = false) {ops : List BatchOp}
    (hops : Store.opsOf w.change = .ok ops) {op : BatchOp} (hop : op ∈ ops) (part : PartId)
    (index : IndexId) :
    (∃ key, op = .remove key ∧ ¬Key.indexPrefix part index <+: key) := by
  have hindexes : t.indexes.isEmpty = true := by
    rw [Node.isEmpty_indexes_of_submitted hw]
    simpa using hhold
  rcases Node.ops_of_submitted hw hops with ⟨-, rfl⟩ | ⟨hindexes', -⟩
  · simp only [List.map_map, List.mem_map, Function.comp_apply] at hop
    obtain ⟨e, -, rfl⟩ := hop
    refine ⟨_, rfl, fun hpre => ?_⟩
    have htag := (Key.head?_record ..).symm.trans (Key.head?_of_indexPrefix hpre)
    exact absurd htag (by decide)
  · rw [hindexes] at hindexes'
    exact absurd hindexes' nofun

/-- An index was in the normal state at some moment after nothing was in flight, if a write that
is applied after that removes an entry of it. -/
theorem normal_of_applied (hstart : s.node.inflight = s.tracked)
    (horderly : Orderly (s.timeline actions)) (hsplit : s.timeline actions = before ++ after)
    (hdrained : (s.strikeAll before).node.inflight = 0) (hmem : .apply w ∈ after)
    (hslot : w.token.slot? = some l) {ops : List BatchOp} (hops : Store.opsOf w.change = .ok ops)
    {key : Bytes} (hkey : .remove key ∈ ops) {index : IndexId}
    (hpre : Key.indexPrefix w.place.part index <+: key) :
    ∃ mid rest, after = mid ++ rest ∧
      (s.strikeAll (before ++ mid)).node.markers.state w.place index = .normal := by
  by_cases hhold : w.token.hold?.isSome = true
  · obtain ⟨-, mid, t, rest, hafter, hw⟩ :=
      of_drained hstart horderly hsplit hdrained hmem hslot hhold
    rw [Node.place_of_submitted hw] at hpre ⊢
    refine ⟨mid, _, hafter, ?_⟩
    rw [strikeAll_append]
    exact Node.normal_of_remove hw hops hkey hpre
  · obtain ⟨front, t, rest, -, hw⟩ := fromTurn_of_apply horderly
      (by rw [hsplit]; exact List.mem_append_right _ hmem) hslot
    obtain ⟨key', heq, hnone⟩ :=
      not_indexed_of_plain hw (by simpa using hhold) hops hkey w.place.part index
    rw [← BatchOp.remove.inj heq] at hnone
    exact absurd hpre hnone

/-- And it was being rebuilt if the write defers a removal from it. -/
theorem rebuilding_of_applied (hstart : s.node.inflight = s.tracked)
    (horderly : Orderly (s.timeline actions)) (hsplit : s.timeline actions = before ++ after)
    (hdrained : (s.strikeAll before).node.inflight = 0) (hmem : .apply w ∈ after)
    (hslot : w.token.slot? = some l) {ops : List BatchOp} (hops : Store.opsOf w.change = .ok ops)
    {key value : Bytes} (hput : .put key value ∈ ops) {index : IndexId}
    (hpre : Key.indexPrefix w.place.part index <+: value) :
    ∃ mid rest, after = mid ++ rest ∧
      (s.strikeAll (before ++ mid)).node.markers.state w.place index = .rebuilding := by
  by_cases hhold : w.token.hold?.isSome = true
  · obtain ⟨-, mid, t, rest, hafter, hw⟩ :=
      of_drained hstart horderly hsplit hdrained hmem hslot hhold
    rw [Node.place_of_submitted hw] at hpre ⊢
    refine ⟨mid, _, hafter, ?_⟩
    rw [strikeAll_append]
    exact Node.rebuilding_of_put hw hops hput hpre
  · obtain ⟨front, t, rest, -, hw⟩ := fromTurn_of_apply horderly
      (by rw [hsplit]; exact List.mem_append_right _ hmem) hslot
    obtain ⟨key', heq, -⟩ :=
      not_indexed_of_plain hw (by simpa using hhold) hops hput w.place.part index
    simp at heq

/-- A look at an index state is made while its slot is counted. -/
theorem inflight_pos_of_look (hstart : s.node.inflight = s.tracked)
    (horderly : Orderly (s.timeline actions)) {e : Event}
    (hsplit : s.timeline actions = before ++ .look l e :: after) :
    0 < (s.strikeAll before).node.inflight := by
  rw [hsplit] at horderly
  obtain ⟨q, hleads⟩ := horderly l
  obtain ⟨p, hbefore, hlook⟩ := leads_append_iff.1 hleads
  refine inflight_pos hstart horderly.of_append hbefore ?_
  obtain _ | ⟨hnext, -⟩ := hlook
  cases hnext with
  | elsewhere helse => exact absurd rfl helse.slot?_ne
  | look => rfl

/-- **Draining isolates rebuilds.**  Take any moment of any run at which nothing is in flight.  An
index-aware write that is applied after it has its whole turn after it, and so all looks at index
states, each of which shows the state of its own moment, while the count is not zero.  No write of
a request that is applied after it removes an entry of an index that is never in the normal state
from that moment on, and none defers a removal from an index that is always in the normal state
from that moment on. -/
theorem draining_isolates (options : Options) (catalog : Catalog) (clock : Nat → UInt64)
    (actions : List Action) (before after : List Stroke) :
    let s := start options catalog clock
    s.timeline actions = before ++ after → (s.strikeAll before).node.inflight = 0 →
    (∀ w l, .apply w ∈ after → w.token.slot? = some l → w.token.hold?.isSome = true →
      (∀ e, .look l e ∉ before) ∧
      ∃ mid t rest, after = mid ++ ((s.strikeAll (before ++ mid)).node.strokesOf t ++ rest) ∧
        w ∈ (s.strikeAll (before ++ mid)).node.submitted t) ∧
    (∀ mid l e rest, after = mid ++ .look l e :: rest →
      let n := (s.strikeAll (before ++ mid)).node
      0 < n.inflight ∧ ∃ space index, e = .call (.indexState ⟨space, l.part⟩ index
        (n.markers.state ⟨space, l.part⟩ index) n.inflight)) ∧
    (∀ place index, (∀ mid rest, after = mid ++ rest →
        (s.strikeAll (before ++ mid)).node.markers.state place index ≠ .normal) →
      ∀ w ops key, .apply w ∈ after → w.token.slot?.isSome = true → w.place = place →
        Store.opsOf w.change = .ok ops → .remove key ∈ ops →
        ¬Key.indexPrefix place.part index <+: key) ∧
    (∀ place index, (∀ mid rest, after = mid ++ rest →
        (s.strikeAll (before ++ mid)).node.markers.state place index = .normal) →
      ∀ w ops key value, .apply w ∈ after → w.token.slot?.isSome = true → w.place = place →
        Store.opsOf w.change = .ok ops → .put key value ∈ ops →
        ¬Key.indexPrefix place.part index <+: value) := by
  intro s hsplit hdrained
  have hstart : s.node.inflight = s.tracked := rfl
  have horderly : Orderly (s.timeline actions) :=
    orderly_timeline (lives_start options catalog clock) (List.append_nil _).symm
  refine ⟨fun w l hmem hslot hhold => ?_, fun mid l e rest hafter => ?_, ?_, ?_⟩
  · obtain ⟨hnone, mid, t, rest, hafter, hw⟩ :=
      of_drained hstart horderly hsplit hdrained hmem hslot hhold
    rw [← strikeAll_append] at hafter hw
    exact ⟨fun e he => hnone _ he rfl, mid, t, rest, hafter, hw⟩
  · rw [hafter, ← List.append_assoc] at hsplit
    exact ⟨inflight_pos_of_look hstart horderly hsplit, isTrueAt_of_timeline hsplit⟩
  · rintro place index hnever w ops key hmem hslot rfl hops hkey hpre
    obtain ⟨l, hl⟩ := Option.isSome_iff_exists.1 hslot
    obtain ⟨mid, rest, hafter, hstate⟩ :=
      normal_of_applied hstart horderly hsplit hdrained hmem hl hops hkey hpre
    exact hnever mid rest hafter hstate
  · rintro place index halways w ops key value hmem hslot rfl hops hput hpre
    obtain ⟨l, hl⟩ := Option.isSome_iff_exists.1 hslot
    obtain ⟨mid, rest, hafter, hstate⟩ :=
      rebuilding_of_applied hstart horderly hsplit hdrained hmem hl hops hput hpre
    rw [halways mid rest hafter] at hstate
    exact absurd hstate nofun

/-- A driver stores an edge with its index entry and puts the index under rebuild. -/
def rebuilding : List Action :=
  [.addPart ⟨1, 3⟩, .put ⟨1, 3⟩ (Key.record 1 3 Node.sampleEdge) [1, 0, 0],
    .put ⟨1, 3⟩ (Key.entry 1 3 7 Node.sampleEdge []) [], .setMarkers Node.sample.markers]

/-- It has the edge deleted while writes are held back for some time. -/
def deleting : List Action := [.pause, .delete Node.sampleRequest, .resume]

theorem draining_isolates_sample :
    let s := start {} Node.sample.catalog fun _ => 0
    let after := (s.run rebuilding).timeline deleting
    (∃ w, .apply w ∈ after ∧ w.token.hold?.isSome = true ∧ w.place = ⟨1, 3⟩) ∧
      ∀ w ops key, .apply w ∈ after → w.token.slot?.isSome = true → w.place = ⟨1, 3⟩ →
        Store.opsOf w.change = .ok ops → .remove key ∈ ops → ¬Key.indexPrefix 3 7 <+: key := by
  intro s after
  have hsplit : s.timeline (rebuilding ++ deleting) = s.timeline rebuilding ++ after :=
    s.timeline_append rebuilding deleting
  have hdrained : (s.strikeAll (s.timeline rebuilding)).node.inflight = 0 := by decide +kernel
  -- the marker stays, stroke by stroke
  have hmarkers : (List.range (after.length + 1)).all (fun k =>
      (s.strikeAll (s.timeline rebuilding ++ after.take k)).node.markers.state ⟨1, 3⟩ 7 ≠ .normal)
      = true := by decide +kernel
  have hnever : ∀ mid rest, after = mid ++ rest →
      (s.strikeAll (s.timeline rebuilding ++ mid)).node.markers.state ⟨1, 3⟩ 7 ≠ .normal := by
    intro mid rest hafter
    have hlen : mid.length ∈ List.range (after.length + 1) := by
      rw [List.mem_range, hafter, List.length_append]
      omega
    have htake : after.take mid.length = mid := by rw [hafter, List.take_left]
    have hstate := List.all_eq_true.1 hmarkers _ hlen
    rw [htake] at hstate
    simpa using hstate
  obtain ⟨-, -, hisolates, -⟩ := draining_isolates {} Node.sample.catalog (fun _ => 0)
    (rebuilding ++ deleting) (s.timeline rebuilding) after hsplit hdrained
  refine ⟨?_, hisolates ⟨1, 3⟩ 7 hnever⟩
  have happlied : (after.any fun σ =>
      σ.applied?.any fun w => w.token.hold?.isSome ∧ w.place = ⟨1, 3⟩) = true := by decide +kernel
  obtain ⟨σ, hσ, hw⟩ := List.any_eq_true.1 happlied
  cases σ with
  | apply w => exact ⟨w, hσ, by simpa [Stroke.applied?] using hw⟩
  | _ => simp [Stroke.applied?] at hw

end Session

end EdgeDeletion
