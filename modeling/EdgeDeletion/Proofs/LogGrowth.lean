/-
The log of deferred removals during a run.

The keys of log lines are created from numbers that ascend, and writes are applied in the order
of their turns.  Nothing else that a node does stores or removes keys of the log.

* `Course.draws` — the keys that are created have the numbers that are drawn, in order;
* `Course.keys_applies` — writes are applied in the order in which their keys were created;
* `Course.grows` — the logs gain the lines of the writes that succeed and change in no other
  way;
* `deferrals_survive` — no deferred removal is lost.
-/
import EdgeDeletion.Proofs.ByteOrder
import EdgeDeletion.Proofs.LogLines
import Mathlib.Data.List.Flatten

namespace EdgeDeletion

open KeyOrder (before)

/-! ### Keys and numbers -/

/-- Whether an action has nothing to do with the log, if it is none of a request. -/
def Action.SparesLog : Action → Prop
  | .put _ key _ => key.head? ≠ some Key.operationTag
  | .submit _ _ change =>
    ∀ ops, Store.opsOf change = .ok ops → ∀ op ∈ ops, op.key.head? ≠ some Key.operationTag
  | _ => True

namespace Session

variable {P : Action → Prop} {s : Session} {h h' : List Stroke} {l : List Source}

/-- The keys that are created have the numbers that are drawn, in order. -/
theorem Course.draws (hcourse : Course P s h l) : ∃ draws : List (Place × UInt64),
    l.flatMap Source.created = draws.map Key.deferralAt ∧
      s.node.sequencer.drawMany draws.length
        = (draws.map Prod.snd, (s.strikeAll h).node.sequencer) := by
  induction hcourse with
  | @calm s h hcalm => exact ⟨[], rfl, congrArg (([], ·)) (s.strikeAll_calm hcalm).2.symm⟩
  | @drive s a haside ha =>
    obtain ⟨-, -, -, -, -, hsequencer⟩ := s.act_aside haside
    exact ⟨[], rfl, congrArg (([], ·)) hsequencer.symm⟩
  | resume s =>
    refine ⟨[], rfl, congrArg (([], ·)) ?_⟩
    rw [strikeAll_strokesOfResume]
    exact s.node.sequencer_resume.symm
  | turn s t =>
    obtain ⟨draws, hcreated, hdraws⟩ := s.node.createdIn_eq t
    refine ⟨draws, (List.flatMap_singleton ..).trans hcreated, ?_⟩
    rw [hdraws, strikeAll_strokesOf, Node.sequencer_work]
  | @submit s name place change ha =>
    refine ⟨[], rfl, congrArg (([], ·)) ?_⟩
    rw [strikeAll_ofSubmit]
    show _ = (Node.completeAll { s.node with store := _ } _).sequencer
    rw [Node.sequencer_completeAll]
  | @append s h h' l l' hfirst hsecond ihfirst ihsecond =>
    obtain ⟨draws, hcreated, hdraws⟩ := ihfirst
    obtain ⟨draws', hcreated', hdraws'⟩ := ihsecond
    refine ⟨draws ++ draws', ?_, ?_⟩
    · rw [List.flatMap_append, hcreated, hcreated', List.map_append]
    · rw [List.length_append, Sequencer.drawMany_add, hdraws, hdraws', List.map_append,
        strikeAll_append]

/-- The writes that the store is done with have lines under the keys that were created. -/
theorem Course.keys_applies (hcourse : Course P s h l) (hheld : s.node.store.heldWrites = []) :
    ((applies h).flatMap Write.keys).Sublist (l.flatMap Source.created) := by
  have hqueue := hcourse.queue
  rw [hheld, List.nil_append] at hqueue
  have happlied : (applies h).Sublist (l.flatMap Source.writes) := by
    rw [← hqueue]
    exact List.sublist_append_left ..
  refine (happlied.flatMap Write.keys).trans ?_
  rw [List.flatMap_assoc]
  exact List.Sublist.flatMap_right l fun src _ => src.keys_writes

/-- A write that the store is done with has a source. -/
theorem Course.of_mem_applies (hcourse : Course P s h l) (hheld : s.node.store.heldWrites = [])
    {w : Write Submitter} (hw : w ∈ applies h) : ∃ src ∈ l, w ∈ src.writes := by
  have hqueue := hcourse.queue
  rw [hheld, List.nil_append] at hqueue
  have hmem : w ∈ l.flatMap Source.writes := by
    rw [← hqueue]
    exact List.mem_append_left _ hw
  exact List.mem_flatMap.1 hmem

theorem Course.keepsLog (hcourse : Course Action.SparesLog s h l) {w : Write Submitter}
    (hw : w ∈ l.flatMap Source.writes) : w.KeepsLog := by
  induction hcourse with
  | calm | drive | resume => simp at hw
  | turn s t =>
    rw [List.flatMap_singleton] at hw
    exact Node.keepsLog_of_submitted hw
  | submit hspares =>
    rw [List.flatMap_singleton] at hw
    rw [List.mem_singleton.1 hw]
    exact fun ops hops op hop htag => absurd htag (hspares ops hops op hop)
  | append _ _ ihfirst ihsecond =>
    rw [List.flatMap_append] at hw
    exact (List.mem_append.1 hw).elim ihfirst ihsecond

/-! ### Growth -/

/-- The write that succeeds in a stroke. -/
def lands (s : Session) : Stroke → List (Write Submitter)
  | .apply w => if (s.node.store.apply w).2.result.isOk then [w] else []
  | _ => []

/-- The writes that succeed in strokes, in order. -/
def landed (s : Session) : List Stroke → List (Write Submitter)
  | [] => []
  | σ :: h => s.lands σ ++ (s.strike σ).landed h

/-- The lines of the writes that succeed in a partition. -/
def linesAt (s : Session) (h : List Stroke) (place : Place) : List (Bytes × Bytes) :=
  ((s.landed h).filter (·.place = place)).flatMap Write.lines

/-- The logs gain the lines of the writes that succeed and change in no other way. -/
def Grows (s : Session) (h : List Stroke) : Prop :=
  ∀ place, Contents.SameLog ((s.strikeAll h).node.store.stored place)
    ((s.node.store.stored place).putAll (s.linesAt h place))

theorem landed_append (s : Session) (h h' : List Stroke) :
    s.landed (h ++ h') = s.landed h ++ (s.strikeAll h).landed h' := by
  induction h generalizing s with
  | nil => rfl
  | cons σ h ih =>
    show s.lands σ ++ (s.strike σ).landed (h ++ h') = _
    rw [ih, ← List.append_assoc]
    rfl

theorem landed_sublist (s : Session) (h : List Stroke) : (s.landed h).Sublist (applies h) := by
  induction h generalizing s with
  | nil => exact .slnil
  | cons σ h ih =>
    have hfirst : (s.lands σ).Sublist (applies [σ]) := by
      cases σ with
      | apply w =>
        rw [lands]
        split
        · exact List.Sublist.refl _
        · exact List.nil_sublist _
      | _ => exact List.nil_sublist _
    rw [show σ :: h = [σ] ++ h from rfl, applies_append]
    exact hfirst.append (ih (s.strike σ))

theorem landed_eq_nil (s : Session) {h : List Stroke} (hnone : applies h = []) :
    s.landed h = [] := List.sublist_nil.1 (hnone ▸ s.landed_sublist h)

theorem Grows.append (hgrows : s.Grows h) (hgrows' : (s.strikeAll h).Grows h') :
    s.Grows (h ++ h') := by
  intro place
  rw [strikeAll_append, linesAt, landed_append, List.filter_append, List.flatMap_append,
    Contents.putAll_append]
  exact (hgrows' place).trans ((hgrows place).putAll _)

/-- Strokes without a write that is applied grow no log. -/
theorem grows_of_sameLog (hnone : applies h = []) (hsame : ∀ place, Contents.SameLog
    ((s.strikeAll h).node.store.stored place) (s.node.store.stored place)) : s.Grows h := by
  intro place
  rw [linesAt, s.landed_eq_nil hnone]
  exact hsame place

theorem grows_of_parts (hnone : applies h = [])
    (hparts : (s.strikeAll h).node.store.parts = s.node.store.parts) : s.Grows h := by
  refine grows_of_sameLog hnone fun place => ?_
  rw [Store.stored, hparts]
  exact .refl _

theorem grows_calm (s : Session) (hcalm : ∀ σ ∈ h, σ.isCalm = true) : s.Grows h :=
  grows_of_parts (applies_of_calm hcalm) (congrArg Store.parts (s.strikeAll_calm hcalm).1)

theorem grows_apply (s : Session) {w : Write Submitter} (hkeeps : w.KeepsLog) :
    s.Grows [.apply w] := by
  intro place
  show Contents.SameLog ((s.node.store.apply w).1.stored place) _
  cases hresult : (s.node.store.apply w).2.result with
  | error code =>
    have hlines : s.linesAt [.apply w] place = [] := by
      simp [linesAt, landed, lands, hresult, Except.isOk, Except.toBool]
    rw [hlines, Store.stored, Store.apply_parts_of_error hresult]
    exact .refl _
  | ok u =>
    obtain ⟨c, ops, hc, hops, hparts⟩ := Store.apply_of_ok hresult
    have hlines : s.linesAt [.apply w] place = if w.place = place then w.lines else [] := by
      by_cases hplace : w.place = place <;>
        simp [linesAt, landed, lands, hresult, Except.isOk, Except.toBool, hplace]
    rw [hlines, Store.stored, Store.stored, hparts, OrderedMap.get?_insert]
    by_cases hplace : w.place = place
    · subst hplace
      rw [if_pos rfl, if_pos rfl, hc]
      exact hkeeps.sameLog hops c
    · rw [if_neg hplace, if_neg (Ne.symm hplace)]
      exact .refl _

theorem grows_ofWrites (s : Session) (store : Store Submitter) {ws : List (Write Submitter)}
    (hkeeps : ∀ w ∈ ws, w.KeepsLog) : s.Grows (Stroke.ofWrites store ws) := by
  induction ws generalizing s store with
  | nil => exact grows_calm s (by simp [Stroke.ofWrites])
  | cons w ws ih =>
    obtain ⟨hw, hws⟩ := List.forall_mem_cons.1 hkeeps
    have hfirst : s.Grows ([.apply w] ++ Stroke.ofCompletion (store.apply w).2) :=
      (s.grows_apply hw).append (grows_calm _ (Stroke.isCalm_ofCompletion _))
    exact hfirst.append (ih _ _ hws)

theorem grows_ofSubmit (s : Session) (store : Store Submitter) {w : Write Submitter}
    (hkeeps : store.held.isSome = false → w.KeepsLog) : s.Grows (Stroke.ofSubmit store w) := by
  have hsubmit : s.Grows [.submit w] := grows_of_parts rfl rfl
  have hrest : (s.strikeAll [.submit w]).Grows
      (if store.held.isSome then [] else Stroke.ofWrites store.counted [w]) := by
    by_cases hheld : store.held.isSome = true
    · rw [if_pos hheld]
      exact grows_calm _ (by simp)
    · rw [if_neg hheld]
      refine grows_ofWrites _ _ fun w' hw' => ?_
      rw [List.mem_singleton.1 hw']
      exact hkeeps (by simpa using hheld)
  exact hsubmit.append hrest

theorem grows_strokesOf (s : Session) (t : Turn) : s.Grows (s.node.strokesOf t) := by
  obtain ⟨front, spent, back, hfront, hback, hspent, heq⟩ := s.node.strokesOf_eq t
  have hspent : (s.strikeAll front).Grows spent := by
    rcases hspent with rfl | rfl
    · exact grows_calm _ (by simp)
    · refine grows_of_parts rfl ?_
      rw [(s.strikeAll_calm hfront).1]
      exact s.node.planned_parts t
  have hwrites : ∀ s' : Session,
      s'.Grows ((s.node.submitted t).flatMap (Stroke.ofSubmit (s.node.planned t).store)) := by
    intro s'
    have hkeeps := fun w => Node.keepsLog_of_submitted (n := s.node) (t := t) (w := w)
    rcases s.node.submitted_eq t with hnone | ⟨w, hw⟩
    · rw [hnone]
      exact s'.grows_calm (by simp)
    · rw [hw] at hkeeps ⊢
      rw [List.flatMap_singleton]
      exact s'.grows_ofSubmit _ fun _ => hkeeps w (List.mem_singleton_self w)
  rw [heq]
  exact (s.grows_calm hfront).append (hspent.append ((grows_calm _ hback).append (hwrites _)))

theorem sameLog_aside (s : Session) {a : Action} (haside : a.isAside = true) (ha : a.SparesLog)
    (place : Place) : Contents.SameLog ((s.act a).node.store.stored place)
      (s.node.store.stored place) := by
  rcases s.stored_aside haside place with hsame | ⟨key, value, rfl, hput⟩
  · rw [hsame]
    exact .refl _
  · rw [hput]
    exact Contents.sameLog_insert ha value

/-- The logs gain the lines of the writes that succeed and change in no other way. -/
theorem Course.grows (hcourse : Course Action.SparesLog s h l)
    (hkeeps : ∀ w ∈ applies h, w.KeepsLog) : s.Grows h := by
  induction hcourse with
  | @calm s h hcalm => exact s.grows_calm hcalm
  | @drive s a haside ha => exact grows_of_sameLog rfl (s.sameLog_aside haside ha)
  | resume s =>
    have hunhold : s.Grows [.unhold] := grows_of_parts rfl rfl
    refine hunhold.append (grows_ofWrites _ _ fun w hw => hkeeps w ?_)
    show w ∈ applies (Stroke.ofWrites _ s.node.store.heldWrites)
    rwa [applies_ofWrites]
  | turn s t => exact s.grows_strokesOf t
  | @submit s name place change ha =>
    refine s.grows_ofSubmit _ fun hheld => hkeeps _ ?_
    rw [applies_ofSubmit, hheld]
    exact List.mem_singleton_self _
  | append _ _ ihfirst ihsecond =>
    rw [applies_append] at hkeeps
    exact (ihfirst fun w hw => hkeeps w (List.mem_append_left _ hw)).append
      (ihsecond fun w hw => hkeeps w (List.mem_append_right _ hw))

/-! ### Nothing is lost -/

/-- The keys that are created differ and ascend within a partition, unless the numbers run out. -/
theorem Course.ascends (hcourse : Course P s h l)
    (hbelow : ∀ x ∈ s.node.drawnUntil (s.strikeAll h).node, x ≠ 0xffffffffffffffff) :
    (l.flatMap Source.created).Pairwise fun d d' =>
      d.2 ≠ d'.2 ∧ (d.1.part = d'.1.part → before d.2 d'.2 = true) := by
  obtain ⟨draws, hcreated, hdraws⟩ := hcourse.draws
  have hnumbers := Node.drawnUntil_of_eq (n := s.node) (m := (s.strikeAll h).node)
    (congrArg Prod.snd hdraws).symm
  rw [hnumbers] at hbelow
  have hascend := Sequencer.drawMany_ascending fun x hx => hbelow x (List.dropLast_subset _ hx)
  rw [hdraws, List.pairwise_map] at hascend
  rw [hcreated, List.pairwise_map]
  refine hascend.imp fun {d d'} hlt => ⟨fun heq => ?_, fun hpart => ?_⟩
  · exact UInt64.ne_of_lt hlt (Key.deferral_inj heq)
  · show before (Key.deferral d.1.part d.2) (Key.deferral d'.1.part d'.2) = true
    rw [show d'.1.part = d.1.part from hpart.symm, Key.before_deferral]
    exact decide_eq_true (UInt64.lt_iff_toNat_lt.1 hlt)

theorem Course.head?_of_mem_created (hcourse : Course P s h l) {d : Place × Bytes}
    (hd : d ∈ l.flatMap Source.created) : d.2.head? = some Key.operationTag := by
  obtain ⟨draws, hcreated, -⟩ := hcourse.draws
  rw [hcreated] at hd
  obtain ⟨draw, -, rfl⟩ := List.mem_map.1 hd
  exact Key.head?_deferral ..

theorem keys_linesAt (s : Session) (h : List Stroke) (place : Place) :
    ((s.linesAt h place).map fun line => (place, line.1)).Sublist
      ((applies h).flatMap Write.keys) := by
  have hkeys : (s.linesAt h place).map (fun line => (place, line.1))
      = ((s.landed h).filter (·.place = place)).flatMap Write.keys := by
    rw [linesAt, List.map_flatMap]
    refine List.flatMap_congr fun w hw => ?_
    have hplace : w.place = place := by simpa using (List.mem_filter.1 hw).2
    rw [Write.keys, hplace]
  rw [hkeys]
  exact (List.filter_sublist.trans (s.landed_sublist h)).flatMap _

/-- No write of a request stores or removes anything under the keys of the lines before it. -/
theorem Course.lines_untouched (hcourse : Course P s h l) (hheld : s.node.store.heldWrites = [])
    (hbelow : ∀ x ∈ s.node.drawnUntil (s.strikeAll h).node, x ≠ 0xffffffffffffffff)
    {front mid rest : List Stroke} {w w' : Write Submitter}
    (hsplit : h = front ++ .apply w :: (mid ++ .apply w' :: rest))
    (hslot : w.token.slot?.isSome = true) (hslot' : w'.token.slot?.isSome = true)
    {ops ops' : List BatchOp} (hops : Store.opsOf w.change = .ok ops)
    (hops' : Store.opsOf w'.change = .ok ops') {key value : Bytes} (hput : .put key value ∈ ops)
    {op : BatchOp} (hop : op ∈ ops') : op.key ≠ key := by
  rintro rfl
  have happlies : applies h = applies front ++ w :: (applies mid ++ w' :: applies rest) := by
    rw [hsplit, applies_append]
    exact congrArg (applies front ++ w :: ·) (applies_append ..)
  have hmem : (w.place, op.key) ∈ w.keys := Write.mem_keys hslot hops hput
  have hkeys := hcourse.keys_applies hheld
  have htag : op.key.head? = some Key.operationTag := by
    refine hcourse.head?_of_mem_created (d := (w.place, op.key)) (hkeys.subset ?_)
    exact List.mem_flatMap.2 ⟨w, by rw [happlies]; simp, hmem⟩
  -- only to store a line of its own has the later write an operation in the log
  obtain ⟨src, -, hw'⟩ := hcourse.of_mem_applies hheld (w := w') (by rw [happlies]; simp)
  obtain ⟨-, key', value', rfl⟩ := src.keepsLog_of_slot hw' hslot' ops' hops' op hop htag
  have hmem' : (w'.place, key') ∈ w'.keys := Write.mem_keys hslot' hops' hop
  -- but keys of different writes differ
  have hascends := (hcourse.ascends hbelow).sublist hkeys
  rw [happlies, List.flatMap_append, List.flatMap_cons, List.pairwise_append,
    List.pairwise_append] at hascends
  refine (hascends.2.1.2.2 _ hmem (w'.place, key') ?_).1 rfl
  rw [List.flatMap_append, List.flatMap_cons]
  exact List.mem_append_right _ (List.mem_append_left _ hmem')

/-- If no created key was stored before, a log keeps what it had, and what is new in it are the
lines of the writes that succeed in its partition. -/
theorem Course.log_gains (hcourse : Course Action.SparesLog s h l)
    (hheld : s.node.store.heldWrites = [])
    (hbelow : ∀ x ∈ s.node.drawnUntil (s.strikeAll h).node, x ≠ 0xffffffffffffffff)
    (hnew : ∀ d ∈ l.flatMap Source.created, (s.node.store.stored d.1).get? d.2 = none)
    (place : Place) :
    (∀ k v, k.head? = some Key.operationTag → (s.node.store.stored place).get? k = some v →
      ((s.strikeAll h).node.store.stored place).get? k = some v) ∧
    ((s.strikeAll h).node.store.stored place).logSince (s.node.store.stored place)
      = s.linesAt h place ∧
    ((s.linesAt h place).map fun line => (place, line.1)).Sublist (l.flatMap Source.created) := by
  have hgrows : s.Grows h := hcourse.grows fun w hw => by
    obtain ⟨src, hsrc, hw⟩ := hcourse.of_mem_applies hheld hw
    exact hcourse.keepsLog (List.mem_flatMap.2 ⟨src, hsrc, hw⟩)
  -- the lines that are new in the partition are some of all that were created
  have hlines := (s.keys_linesAt h place).trans (hcourse.keys_applies hheld)
  have hmem : ∀ line ∈ s.linesAt h place, (place, line.1) ∈ l.flatMap Source.created :=
    fun line hline => hlines.subset (List.mem_map.2 ⟨line, hline, rfl⟩)
  have hascend : (s.linesAt h place).Pairwise fun a b => before a.1 b.1 = true := by
    have hascends := (hcourse.ascends hbelow).sublist hlines
    rw [List.pairwise_map] at hascends
    exact hascends.imp fun hab => hab.2 rfl
  have htags := fun line hline => hcourse.head?_of_mem_created (hmem line hline)
  have hnew := fun line hline => hnew _ (hmem line hline)
  exact ⟨fun k v htag hv => Contents.get?_of_sameLog (hgrows place) hascend hnew htag hv,
    Contents.logSince_of_sameLog (hgrows place) htags hascend hnew, hlines⟩

/-- **No deferred removal is lost.**  Take any run that starts with no writes held back and in
which the greatest number is not drawn, whatever the clock reads.  The keys of deferred removals
that are created differ, and those of a partition ascend in the order of their creation.  Writes
of requests store their lines under these keys, in this order, and no later write of a request
stores or removes anything under them.  If the driver leaves the log alone and no created key was
stored before, each log keeps what it had, and what is new in it are the lines of the writes that
have succeeded in its partition, each of them once and in the order of their creation. -/
theorem deferrals_survive {s : Session} (hheld : s.node.store.heldWrites = [])
    (actions : List Action)
    (hbelow : ∀ x ∈ s.node.drawnUntil (s.run actions).node, x ≠ 0xffffffffffffffff) :
    let created := s.created actions
    let h := s.timeline actions
    (created.Pairwise fun d d' =>
      d.2 ≠ d'.2 ∧ (d.1.part = d'.1.part → before d.2 d'.2 = true)) ∧
    ((applies h).flatMap Write.keys).Sublist created ∧
    (∀ front w mid w' rest, h = front ++ .apply w :: (mid ++ .apply w' :: rest) →
      w.token.slot?.isSome = true → w'.token.slot?.isSome = true →
      ∀ ops ops', Store.opsOf w.change = .ok ops → Store.opsOf w'.change = .ok ops' →
      ∀ key value, .put key value ∈ ops → ∀ op ∈ ops', op.key ≠ key) ∧
    ((∀ a ∈ actions, a.SparesLog) →
      (∀ d ∈ created, (s.node.store.stored d.1).get? d.2 = none) → ∀ place,
      let c := s.node.store.stored place
      let c' := (s.run actions).node.store.stored place
      (∀ k v, k.head? = some Key.operationTag → c.get? k = some v → c'.get? k = some v) ∧
      c'.logSince c = s.linesAt h place ∧
      ((s.linesAt h place).map fun line => (place, line.1)).Sublist created) := by
  intro created h
  have hcourse : Course (fun _ => True) s h (s.sources actions) :=
    s.course_timeline (fun _ _ => trivial) trivial
  have hrun : s.run actions = s.strikeAll h := (s.strikeAll_timeline actions).symm
  rw [hrun] at hbelow ⊢
  refine ⟨hcourse.ascends hbelow, hcourse.keys_applies hheld, ?_, fun hspares hnew place => ?_⟩
  · intro front w mid w' rest hsplit hslot hslot' ops ops' hops hops' key value hput op hop
    exact hcourse.lines_untouched hheld hbelow hsplit hslot hslot' hops hops' hput hop
  · exact (s.course_timeline hspares trivial).log_gains hheld hbelow hnew place

/-- A clock that jumps back, stands still and moves on. -/
def unsteady (draw : Nat) : UInt64 := [9, 3, 3, 12].getD draw 0

/-- A driver has an edge deleted during a pause, stores it anew and has it deleted again. -/
def deletingTwice : List Action :=
  deleting ++ [.put ⟨1, 3⟩ (Key.record 1 3 Node.sampleEdge) [1, 0, 0], .delete Node.sampleRequest]

theorem deferrals_survive_unsteady :
    let s := (start {} Node.sample.catalog unsteady).run rebuilding
    s.node.store.heldWrites = [] ∧
      (∀ x ∈ s.node.drawnUntil (s.run deletingTwice).node, x ≠ 0xffffffffffffffff) ∧
      (∀ a ∈ deletingTwice, a.SparesLog) ∧
      (∀ d ∈ s.created deletingTwice, (s.node.store.stored d.1).get? d.2 = none) ∧
      ((s.run deletingTwice).node.store.stored ⟨1, 3⟩).logSince (s.node.store.stored ⟨1, 3⟩)
        = [9, 10, 11, 12].map fun x =>
            (Key.deferral 3 x, Key.entry 1 3 7 Node.sampleEdge []) := by
  intro s
  have hheld : s.node.store.heldWrites = [] := by decide +kernel
  have hbelow : ∀ x ∈ s.node.drawnUntil (s.run deletingTwice).node, x ≠ 0xffffffffffffffff := by
    -- by the list, since there are too many numbers to run through them all
    have hall : (s.node.drawnUntil (s.run deletingTwice).node).all (· ≠ 0xffffffffffffffff)
        = true := by decide +kernel
    simpa using hall
  have hrecord : (Key.record 1 3 Node.sampleEdge).head? ≠ some Key.operationTag := by decide
  have hspares : ∀ a ∈ deletingTwice, a.SparesLog := by
    simp only [deletingTwice, deleting, List.cons_append, List.nil_append, List.forall_mem_cons]
    exact ⟨trivial, trivial, trivial, hrecord, trivial, by simp⟩
  have hnew : ∀ d ∈ s.created deletingTwice, (s.node.store.stored d.1).get? d.2 = none := by
    have hall : (s.created deletingTwice).all
        (fun d => (s.node.store.stored d.1).get? d.2 = none) = true := by decide +kernel
    exact fun d hd => by simpa using List.all_eq_true.1 hall d hd
  have hlines : s.linesAt (s.timeline deletingTwice) ⟨1, 3⟩ = [9, 10, 11, 12].map fun x =>
      (Key.deferral 3 x, Key.entry 1 3 7 Node.sampleEdge []) := by decide +kernel
  obtain ⟨-, -, -, hlog⟩ := deferrals_survive hheld deletingTwice hbelow
  exact ⟨hheld, hbelow, hspares, hnew, (hlog hspares hnew ⟨1, 3⟩).2.1.trans hlines⟩

end Session

end EdgeDeletion
