/-
The course of a run.

The strokes of a run come in blocks.  Most of them leave the store alone; the others belong
to a turn, to a write of the driver, to something else that the driver does or to the end of
a pause.  A `Course` is a run put together from such blocks, with the sources of its writes,
so that what is true of all runs can be shown block by block.

* `strokesOf_eq` — a turn draws numbers for its plan and submits its write, and leaves the
  store alone otherwise;
* `course_timeline` — every run has a course;
* `Course.queue` — writes are applied in the order in which they were submitted.
-/
import EdgeDeletion.Proofs.Lives
import EdgeDeletion.Proofs.Replanning

namespace EdgeDeletion

/-! ### Strokes that leave the store alone -/

namespace Stroke

/-- Whether a stroke has nothing to do with the store and with the numbers that are drawn. -/
def isCalm : Stroke → Bool
  | .spend .. | .submit _ | .apply _ | .unhold | .drive _ => false
  | _ => true

/-- The write that the store is done with. -/
def applied? : Stroke → Option (Write Submitter)
  | .apply w => some w
  | _ => none

theorem isCalm_ofRelease (slot : Slot) (hold : Option Hold) :
    ∀ σ ∈ ofRelease slot hold, σ.isCalm = true := by
  cases hold <;> simp [ofRelease, isCalm]

theorem isCalm_notes (es : List Event) : ∀ σ ∈ es.map note, σ.isCalm = true := by
  simp [isCalm]

theorem isCalm_ofPlanned (slot : Slot) (es : List Event) :
    ∀ σ ∈ es.map (ofPlanned slot), σ.isCalm = true := by
  intro σ hσ
  obtain ⟨e, -, rfl⟩ := List.mem_map.1 hσ
  cases e with
  | call c => cases c <;> rfl
  | _ => rfl

theorem isCalm_ofCompletion (c : Completion Submitter) :
    ∀ σ ∈ ofCompletion c, σ.isCalm = true := by
  obtain ⟨token, result, rejected⟩ := c
  intro σ hσ
  rcases List.mem_append.1 hσ with hσ | hσ
  · obtain ⟨cause, -, rfl⟩ := List.mem_map.1 hσ
    rfl
  · cases token with
    | outside name =>
      rw [List.mem_singleton.1 hσ]
      rfl
    | partition request part edges hold =>
      simp only [List.mem_append, List.mem_singleton] at hσ
      rcases hσ with (hσ | hσ) | rfl
      · exact isCalm_ofRelease _ hold σ hσ
      · exact isCalm_notes _ σ hσ
      · rfl

end Stroke

/-- The writes that the store is done with, in order. -/
def applies (h : List Stroke) : List (Write Submitter) := h.filterMap Stroke.applied?

theorem applies_append (h h' : List Stroke) : applies (h ++ h') = applies h ++ applies h' :=
  List.filterMap_append ..

theorem applies_of_calm {h : List Stroke} (hcalm : ∀ σ ∈ h, σ.isCalm = true) : applies h = [] := by
  rw [applies, List.filterMap_eq_nil_iff]
  intro σ hσ
  have hcalm := hcalm σ hσ
  cases σ with
  | apply w => simp [Stroke.isCalm] at hcalm
  | _ => rfl

theorem applies_ofWrites (s : Store Submitter) (ws : List (Write Submitter)) :
    applies (Stroke.ofWrites s ws) = ws := by
  induction ws generalizing s with
  | nil => rfl
  | cons w ws ih =>
    have hcalm := applies_of_calm (Stroke.isCalm_ofCompletion (s.apply w).2)
    show w :: applies (Stroke.ofCompletion (s.apply w).2 ++ Stroke.ofWrites (s.apply w).1 ws) = _
    rw [applies_append, hcalm, ih, List.nil_append]

theorem applies_ofSubmit (s : Store Submitter) (w : Write Submitter) :
    applies (Stroke.ofSubmit s w) = if s.held.isSome then [] else [w] := by
  show applies (if s.held.isSome then [] else Stroke.ofWrites s.counted [w]) = _
  by_cases hheld : s.held.isSome = true
  · rw [if_pos hheld, if_pos hheld]
    rfl
  · rw [if_neg hheld, if_neg hheld, applies_ofWrites]

/-! ### The strokes of a turn -/

namespace Node

theorem strokesOfWrite_eq (n : Node) (t : Turn) (change : Change) (edges : Nat)
    (hold : Option Hold) :
    ∃ front, (∀ σ ∈ front, σ.isCalm = true) ∧ n.strokesOfWrite t change edges hold
      = front ++ (if n.losesNext then [] else [t.write change edges hold]).flatMap
          (Stroke.ofSubmit n.store) := by
  rw [strokesOfWrite]
  by_cases hlost : n.losesNext = true
  · rw [if_pos hlost, if_pos hlost]
    refine ⟨.lose t.slot :: Stroke.ofRelease t.slot hold, ?_, (List.append_nil _).symm⟩
    exact List.forall_mem_cons.2 ⟨rfl, Stroke.isCalm_ofRelease _ _⟩
  · rw [if_neg hlost, if_neg hlost]
    exact ⟨[], by simp, by simp⟩

theorem strokesOfPlain_eq (n : Node) {t : Turn} (hindexes : t.indexes.isEmpty = true) :
    ∃ front, (∀ σ ∈ front, σ.isCalm = true) ∧ n.strokesOfPlain t
      = front ++ (n.submitted t).flatMap (Stroke.ofSubmit n.store) := by
  simp only [strokesOfPlain, submitted, verdict, hindexes, if_true]
  cases t.edges.findSome? (Scene.widthError? t.vidLen) with
  | some e => exact ⟨_, by simp [Stroke.isCalm], (List.append_nil _).symm⟩
  | none =>
    obtain ⟨front, hcalm, hwrite⟩ := n.strokesOfWrite_eq t
      (.remove (t.edges.map (Key.record t.vidLen t.place.part))) t.edges.length none
    simp only [List.length_map, hwrite]
    exact ⟨_ :: front, by simpa [Stroke.isCalm] using hcalm, rfl⟩

/-- The strokes of a turn, from where its plan was made. -/
theorem strokesOfPlanned_eq (n : Node) {t : Turn} (hindexes : t.indexes.isEmpty = false) :
    ∃ front, (∀ σ ∈ front, σ.isCalm = true) ∧ n.strokesOfPlanned t
      = front ++ (n.submitted t).flatMap (Stroke.ofSubmit (n.planned t).store) := by
  simp only [strokesOfPlanned, submitted, verdict, hindexes, Bool.false_eq_true, if_false]
  cases (n.planOf t).error with
  | some e => exact ⟨_, by simp [Stroke.isCalm], (List.append_nil _).symm⟩
  | none =>
    cases n.locks.claim t.ids with
    | error edge => exact ⟨_, by simp [Stroke.isCalm], (List.append_nil _).symm⟩
    | ok claimed =>
      obtain ⟨claimed, locks⟩ := claimed
      obtain ⟨front, hcalm, hwrite⟩ := (n.planned t).strokesOfWrite_eq t
        (.batch (Batch.encode (n.opsOf t).1)) ((n.planOf t).steps.countP Step.isRecord)
        (some ⟨claimed, (n.planOf t).steps.countP Step.isEntry⟩)
      rw [n.planned_losesNext t] at hwrite
      simp only [hwrite]
      exact ⟨_ :: _ :: _ :: front, by simpa [Stroke.isCalm] using hcalm, rfl⟩

/-- A turn draws numbers for its plan and submits its write, and leaves the store alone
otherwise. -/
theorem strokesOf_eq (n : Node) (t : Turn) :
    ∃ front spent back, (∀ σ ∈ front, σ.isCalm = true) ∧ (∀ σ ∈ back, σ.isCalm = true) ∧
      (spent = [] ∨ spent = [.spend (n.planned t).store (n.planned t).sequencer]) ∧
      n.strokesOf t = front ++ (spent ++ (back ++
        (n.submitted t).flatMap (Stroke.ofSubmit (n.planned t).store))) := by
  by_cases hindexes : t.indexes.isEmpty = true
  · obtain ⟨back, hcalm, hplain⟩ := n.strokesOfPlain_eq hindexes
    have hplanned : n.planned t = n := by rw [planned, if_pos hindexes]
    rw [strokesOf, if_pos hindexes, hplain, hplanned]
    exact ⟨[], [], back, by simp, hcalm, .inl rfl, rfl⟩
  · obtain ⟨back, hcalm, hplanned⟩ := n.strokesOfPlanned_eq (by simpa using hindexes)
    rw [strokesOf, if_neg hindexes, strokesOfIndexed, hplanned]
    refine ⟨.track t.slot :: (n.planOf t).trace.map (Stroke.ofPlanned t.slot), _, back, ?_, hcalm,
      .inr rfl, by simp⟩
    exact List.forall_mem_cons.2 ⟨rfl, Stroke.isCalm_ofPlanned _ _⟩

end Node

/-! ### Where writes come from -/

/-- What submits writes. -/
inductive Source where
  /-- A turn, at the node where it is taken. -/
  | turn (n : Node) (t : Turn)
  | driver (name : String) (place : Place) (change : Change)

/-- The writes that a source submits. -/
def Source.writes : Source → List (Write Submitter)
  | .turn n t => n.submitted t
  | .driver name place change => [⟨place, change, .outside name⟩]

namespace Node

def sourcesOfAll (n : Node) : List Turn → List Source
  | [] => []
  | t :: ts => .turn n t :: (n.work t).sourcesOfAll ts

def sourcesOfRequest (n : Node) (r : DeleteRequest) : List Source :=
  match n.turns r with
  | .error _ => []
  | .ok ts => (n.opened r).sourcesOfAll ts

end Node

namespace Session

def sourcesOf (s : Session) : Action → List Source
  | .delete r => s.node.sourcesOfRequest r
  | .deleteDeferred r =>
    if s.node.store.held.isSome then s.node.sourcesOfRequest r else s.node.pause.sourcesOfRequest r
  | .submit name place change => [.driver name place change]
  | _ => []

/-- The sources of the writes of a run, in order. -/
def sources (s : Session) : List Action → List Source
  | [] => []
  | a :: actions => s.sourcesOf a ++ (s.act a).sources actions

/-! ### Courses -/

/-- Strokes put together from blocks, with the sources of their writes.  What the driver does is
limited to actions of some kind. -/
inductive Course (P : Action → Prop) : Session → List Stroke → List Source → Prop
  | calm {s : Session} {h : List Stroke} (hcalm : ∀ σ ∈ h, σ.isCalm = true) : Course P s h []
  | drive {s : Session} {a : Action} (haside : a.isAside = true) (ha : P a) :
    Course P s [.drive a] []
  | resume (s : Session) : Course P s s.node.strokesOfResume []
  | turn (s : Session) (t : Turn) : Course P s (s.node.strokesOf t) [.turn s.node t]
  | submit {s : Session} {name : String} {place : Place} {change : Change}
      (ha : P (.submit name place change)) :
    Course P s (Stroke.ofSubmit s.node.store ⟨place, change, .outside name⟩)
      [.driver name place change]
  | append {s : Session} {h h' : List Stroke} {l l' : List Source} (hfirst : Course P s h l)
      (hsecond : Course P (s.strikeAll h) h' l') : Course P s (h ++ h') (l ++ l')

variable {P : Action → Prop}

theorem course_strokesOfAll (s : Session) (ts : List Turn) :
    Course P s (s.node.strokesOfAll ts) (s.node.sourcesOfAll ts) := by
  induction ts generalizing s with
  | nil => exact .calm (by simp [Node.strokesOfAll])
  | cons t ts ih =>
    refine (Course.turn s t).append ?_
    rw [strikeAll_strokesOf]
    exact ih { s with node := s.node.work t }

theorem course_strokesOfRequest (s : Session) (r : DeleteRequest) :
    Course P s (s.node.strokesOfRequest r) (s.node.sourcesOfRequest r) := by
  have harrival : Course P s (s.node.strokesOfArrival r) [] := by
    refine .calm (List.forall_mem_cons.2 ⟨rfl, List.forall_mem_cons.2 ⟨rfl, ?_⟩⟩)
    exact Stroke.isCalm_notes _
  have hparts : Course P (s.strikeAll (s.node.strokesOfArrival r)) (s.node.strokesOfParts r)
      (s.node.sourcesOfRequest r) := by
    rw [strikeAll_strokesOfArrival, Node.strokesOfParts, Node.sourcesOfRequest]
    cases s.node.turns r with
    | error e => exact .calm (by simp [Stroke.isCalm])
    | ok ts => exact course_strokesOfAll { s with node := s.node.opened r, asked := _ } ts
  exact harrival.append hparts

theorem course_strokes (s : Session) {a : Action} (ha : P a) (hpause : P .pause) :
    Course P s (s.strokes a) (s.sourcesOf a) := by
  cases a with
  | delete r => exact course_strokesOfRequest s r
  | deleteDeferred r =>
    rw [strokes, sourcesOf]
    by_cases hheld : s.node.store.held.isSome = true
    · rw [if_pos hheld, if_pos hheld]
      exact course_strokesOfRequest s r
    · rw [if_neg hheld, if_neg hheld]
      have hpaused : Course P s [.drive .pause] [] := .drive rfl hpause
      have hrequest : Course P (s.strikeAll [.drive .pause]) (s.node.pause.strokesOfRequest r)
          (s.node.pause.sourcesOfRequest r) :=
        course_strokesOfRequest { s with node := s.node.pause } r
      have hresumed : Course P ((s.strikeAll [.drive .pause]).strikeAll
          (s.node.pause.strokesOfRequest r)) (s.node.pause.process r).2.strokesOfResume [] := by
        rw [show s.strikeAll [.drive .pause] = { s with node := s.node.pause } from rfl,
          strikeAll_strokesOfRequest]
        exact .resume { s with node := (s.node.pause.process r).2, asked := s.asked ++ [r] }
      simpa using hpaused.append (hrequest.append hresumed)
  | resume => exact .resume s
  | submit name place change => exact .submit ha
  | _ => exact .drive rfl ha

/-- Every run has a course. -/
theorem course_timeline (s : Session) {actions : List Action} (hP : ∀ a ∈ actions, P a)
    (hpause : P .pause) : Course P s (s.timeline actions) (s.sources actions) := by
  induction actions generalizing s with
  | nil => exact .calm (by simp [timeline])
  | cons a actions ih =>
    obtain ⟨ha, hrest⟩ := List.forall_mem_cons.1 hP
    refine (course_strokes s ha hpause).append ?_
    rw [strikeAll_strokes]
    exact ih (s.act a) hrest

/-! ### The order of writes -/

theorem strike_calm (s : Session) {σ : Stroke} (hcalm : σ.isCalm = true) :
    (s.strike σ).node.store = s.node.store ∧
      (s.strike σ).node.sequencer = s.node.sequencer := by
  cases σ with
  | spend | submit | apply | unhold | drive => simp [Stroke.isCalm] at hcalm
  | refuse slot code => exact ⟨Node.store_report .., Node.sequencer_report ..⟩
  | report slot code => exact ⟨Node.store_report .., Node.sequencer_report ..⟩
  | arrive request r =>
    have hquiet := s.quiet_strike_arrive request r
    exact ⟨(congrArg Node.store hquiet).trans rfl, (congrArg Node.sequencer hquiet).trans rfl⟩
  | _ => exact ⟨rfl, rfl⟩

theorem strikeAll_calm (s : Session) {h : List Stroke} (hcalm : ∀ σ ∈ h, σ.isCalm = true) :
    (s.strikeAll h).node.store = s.node.store ∧
      (s.strikeAll h).node.sequencer = s.node.sequencer := by
  induction h generalizing s with
  | nil => exact ⟨rfl, rfl⟩
  | cons σ h ih =>
    obtain ⟨hfirst, hrest⟩ := List.forall_mem_cons.1 hcalm
    obtain ⟨hstore, hsequencer⟩ := s.strike_calm hfirst
    obtain ⟨hstore', hsequencer'⟩ := ih (s.strike σ) hrest
    exact ⟨hstore'.trans hstore, hsequencer'.trans hsequencer⟩

/-- Besides its requests and writes a driver stores an entry at most. -/
theorem stored_aside (s : Session) {a : Action} (haside : a.isAside = true) (place : Place) :
    (s.act a).node.store.stored place = s.node.store.stored place ∨
      ∃ key value, a = .put place key value ∧ (s.act a).node.store.stored place
        = OrderedMap.insert (s.node.store.stored place) key value := by
  cases a with
  | delete | deleteDeferred | resume | submit => simp [Action.isAside] at haside
  | addPart added => exact .inl (s.node.store.stored_addPart added place)
  | put target key value =>
    rw [act]
    cases hput : s.node.store.put target key value with
    | error code => exact .inl rfl
    | ok store =>
      have hstored := Store.stored_put hput place
      by_cases hplace : place = target
      · subst hplace
        exact .inr ⟨key, value, rfl, hstored.trans (if_pos rfl)⟩
      · exact .inl (hstored.trans (if_neg hplace))
  | lock edges =>
    rw [act, Node.claim]
    cases s.node.locks.claim edges <;> exact .inl rfl
  | unlock i =>
    rw [act]
    cases s.guards[i]? <;> exact .inl rfl
  | untrack =>
    rw [act]
    by_cases hnone : s.tracked = 0
    · rw [if_pos hnone]
      exact .inl rfl
    · rw [if_neg hnone]
      exact .inl rfl
  | _ => exact .inl rfl

theorem applies_strokesOf (n : Node) (t : Turn) :
    applies (n.strokesOf t) = if n.store.held.isSome then [] else n.submitted t := by
  obtain ⟨front, spent, back, hfront, hback, hspent, heq⟩ := n.strokesOf_eq t
  have hnone : applies spent = [] := by rcases hspent with rfl | rfl <;> rfl
  have hwrites : applies ((n.submitted t).flatMap (Stroke.ofSubmit (n.planned t).store))
      = if n.store.held.isSome then [] else n.submitted t := by
    rcases n.submitted_eq t with hsubmitted | ⟨w, hsubmitted⟩
    · rw [hsubmitted]
      exact (ite_self _).symm
    · rw [hsubmitted, List.flatMap_singleton, applies_ofSubmit, n.planned_held t]
  rw [heq, applies_append, applies_append, applies_append, applies_of_calm hfront,
    applies_of_calm hback, hnone, hwrites]
  rfl

/-- What a store takes in it is done with at once, unless it holds writes back. -/
theorem done_or_held {held held' : Option (List (Write Submitter))} {ws : List (Write Submitter)}
    (h : held' = held.map (· ++ ws)) :
    (if held.isSome then [] else ws) ++ held'.getD [] = held.getD [] ++ ws := by
  subst h
  cases held <;> simp

/-- The store takes writes in and is done with them in one order: those that it is done with and
those that it still holds back are those it has held back before and the new ones. -/
theorem Course.queue {s : Session} {h : List Stroke} {l : List Source} (hcourse : Course P s h l) :
    applies h ++ (s.strikeAll h).node.store.heldWrites
      = s.node.store.heldWrites ++ l.flatMap Source.writes := by
  induction hcourse with
  | @calm s h hcalm =>
    rw [applies_of_calm hcalm, Store.heldWrites, (s.strikeAll_calm hcalm).1]
    exact (List.append_nil _).symm
  | @drive s a haside ha =>
    obtain ⟨-, -, hheld, -⟩ := s.act_aside haside
    exact hheld.trans (List.append_nil _).symm
  | resume s =>
    rw [strikeAll_strokesOfResume, Store.heldWrites, Node.held_resume]
    show applies (Stroke.ofWrites _ s.node.store.heldWrites) ++ [] = _
    rw [applies_ofWrites]
    rfl
  | turn s t =>
    rw [applies_strokesOf, strikeAll_strokesOf]
    refine (done_or_held (s.node.held_work t)).trans ?_
    exact congrArg (s.node.store.heldWrites ++ ·) (List.append_nil _).symm
  | @submit s name place change ha =>
    rw [applies_ofSubmit, strikeAll_ofSubmit, Store.heldWrites, Node.store_completeAll]
    exact done_or_held Store.held_submit
  | @append s h h' l l' hfirst hsecond ihfirst ihsecond =>
    rw [strikeAll_append, applies_append, List.append_assoc, ihsecond, ← List.append_assoc,
      ihfirst, List.flatMap_append, List.append_assoc]

end Session

end EdgeDeletion
