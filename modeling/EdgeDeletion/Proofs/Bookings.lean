/-
What is noted of effects.

A write that succeeds has the edges that it deletes and the entries that it removes noted
when its outcome is known.  The removals that it defers are noted before that, when the
write gets its edges.

* `effects_strikeAll` — the counters grow by what is noted, stroke by stroke;
* `booked_strokesOf` — what is noted in a turn;
* `booked_timeline` — over a run, what is noted comes from writes that succeed and, for
  deferrals, from turns that are granted their edges.
-/
import EdgeDeletion.Proofs.Answers
import EdgeDeletion.Proofs.LogGrowth
import Mathlib.Data.UInt
import Mathlib.Algebra.BigOperators.Group.List.Basic
import Mathlib.Algebra.Group.Prod

namespace EdgeDeletion

/-- Edges deleted, index entries removed and removals deferred. -/
abbrev Effects := UInt64 × UInt64 × UInt64

/-! ### Signals -/

def Counters.effects (c : Counters) : Effects :=
  (c.edgesDeleted, c.entriesRemoved, c.removalsDeferred)

def Signal.effects : Signal → Effects
  | .edgesDeleted n => (n, 0, 0)
  | .entriesRemoved n => (0, n, 0)
  | .removalsDeferred n => (0, 0, n)
  | _ => 0

def Event.effects : Event → Effects
  | .signal s => s.effects
  | _ => 0

/-- The effects that are noted in a stroke. -/
def Stroke.effects : Stroke → Effects
  | .note e | .look _ e => e.effects
  | _ => 0

theorem Counters.effects_record (c : Counters) (s : Signal) :
    (c.record s).effects = c.effects + s.effects := by
  cases s <;> simp [record, effects, Signal.effects]

theorem Collector.effects_finish {c : Collector} {now : UInt64} {e : Event}
    (he : e ∈ (c.finish now).2) : e.effects = 0 := by
  rw [finish] at he
  split at he
  · exact absurd he List.not_mem_nil
  · rw [List.mem_singleton.1 he]
    rfl

theorem Collector.effects_report {c : Collector} {now : UInt64} {part : PartId} {code : ResultCode}
    {e : Event} (he : e ∈ (c.report now part code).2) : e.effects = 0 := by
  rw [report] at he
  split at he
  · rw [List.mem_singleton.1 he]
    rfl
  · rcases List.mem_append.1 he with he | he
    · cases hok : code.isOk
      · simp only [hok, Bool.false_eq_true, if_false, List.mem_singleton] at he
        rw [he]
        rfl
      · simp [hok] at he
    · exact effects_finish he

namespace Node

/-- The counters of effects, if there are counters. -/
def effects (n : Node) : Option Effects := n.counters.map Counters.effects

theorem effects_emit (n : Node) (e : Event) :
    (n.emit e).effects = n.effects.map (· + e.effects) := by
  rw [effects, effects, Option.map_map]
  cases hcounters : n.counters with
  | none => cases e <;> simp [emit, hcounters]
  | some c =>
    cases e with
    | signal s => simp [emit, hcounters, Event.effects, Counters.effects_record]
    | _ => simp [emit, hcounters, Event.effects]

theorem effects_emitAll (n : Node) (es : List Event) :
    (n.emitAll es).effects = n.effects.map (· + (es.map Event.effects).sum) := by
  induction es generalizing n with
  | nil =>
    show n.effects = n.effects.map (· + 0)
    cases n.effects <;> simp
  | cons e es ih =>
    show ((n.emit e).emitAll es).effects = _
    rw [ih, effects_emit, Option.map_map, List.map_cons, List.sum_cons]
    exact congrArg (Option.map · n.effects) (funext fun x => add_assoc ..)

/-- Events without effects leave these counters as they are. -/
theorem effects_emitAll_of_none (n : Node) {es : List Event} (hes : ∀ e ∈ es, e.effects = 0) :
    (n.emitAll es).effects = n.effects := by
  have hsum : (es.map Event.effects).sum = 0 := List.sum_eq_zero fun x hx => by
    obtain ⟨e, he, rfl⟩ := List.mem_map.1 hx
    exact hes e he
  rw [effects_emitAll, hsum]
  cases n.effects <;> simp

theorem effects_report (n : Node) (request : Nat) (part : PartId) (code : ResultCode) :
    (n.report request part code).effects = n.effects := by
  rw [report]
  cases n.requests[request]? with
  | none => rfl
  | some c => exact effects_emitAll_of_none _ fun e he => Collector.effects_report he

end Node

namespace Session

variable {s : Session} {h h' : List Stroke}

/-- The counters of effects grow by what is noted in a stroke. -/
theorem effects_strike (s : Session) {σ : Stroke} (haside : ∀ a, σ = .drive a → a.isAside = true) :
    (s.strike σ).node.effects = s.node.effects.map (· + σ.effects) := by
  have hzero : s.node.effects.map (· + (0 : Effects)) = s.node.effects := by
    cases s.node.effects <;> simp
  cases σ with
  | note e | look slot e => exact s.node.effects_emit e
  | refuse slot code | report slot code =>
    exact (s.node.effects_report slot.request slot.part code).trans hzero.symm
  | arrive request r =>
    refine (Node.effects_emitAll_of_none _ fun e he => ?_).trans hzero.symm
    exact Collector.effects_finish he
  | drive a =>
    obtain ⟨-, -, -, -, hcounters, -⟩ := s.act_aside (haside a rfl)
    exact (congrArg (Option.map Counters.effects) hcounters).trans hzero.symm
  | _ => exact hzero.symm

theorem effects_strikeAll (s : Session) (haside : ∀ a, .drive a ∈ h → a.isAside = true) :
    (s.strikeAll h).node.effects = s.node.effects.map (· + (h.map Stroke.effects).sum) := by
  induction h generalizing s with
  | nil =>
    show s.node.effects = s.node.effects.map (· + 0)
    cases s.node.effects <;> simp
  | cons σ h ih =>
    have hfirst := s.effects_strike (σ := σ) fun a ha => haside a (ha ▸ List.mem_cons_self ..)
    rw [strikeAll_cons, ih _ fun a ha => haside a (List.mem_cons_of_mem _ ha), hfirst,
      Option.map_map, List.map_cons, List.sum_cons]
    exact congrArg (Option.map · s.node.effects) (funext fun x => add_assoc ..)

end Session

/-! ### Where effects come from -/

namespace Write

/-- How many edges a write of a partition deletes. -/
def edges (w : Write Submitter) : Nat :=
  match w.token with
  | .partition _ _ edges _ => edges
  | .outside _ => 0

/-- How many index entries it removes. -/
def entries (w : Write Submitter) : Nat := (w.token.hold?.map Hold.entries).getD 0

/-- What is counted of a write when it succeeds. -/
def effects (w : Write Submitter) : Effects := (UInt64.ofNat w.edges, UInt64.ofNat w.entries, 0)

end Write

/-- How many removals a turn defers, if it is granted its edges.  What becomes of its write does
not matter here. -/
def Node.deferralsIn (n : Node) (t : Turn) : Nat :=
  match n.verdict t with
  | .write _ _ (some _) => (n.planOf t).steps.countP Step.isDeferral
  | _ => 0

theorem Node.deferralsIn_of_indexed {n : Node} {t : Turn} (hindexes : t.indexes.isEmpty = false) :
    n.deferralsIn t =
      match (n.planOf t).error, n.locks.claim t.ids with
      | none, .ok _ => (n.planOf t).steps.countP Step.isDeferral
      | _, _ => 0 := by
  simp only [deferralsIn, verdict, hindexes, Bool.false_eq_true, if_false]
  cases (n.planOf t).error with
  | some e => rfl
  | none => cases n.locks.claim t.ids <;> rfl

namespace Source

def deferrals : Source → Nat
  | .turn n t => n.deferralsIn t
  | .driver .. => 0

def effects (src : Source) : Effects := (0, 0, UInt64.ofNat src.deferrals)

/-- Whether the write of a source gets lost. -/
def isLost : Source → Bool
  | .turn n t => n.losesNext && (n.verdict t matches .write ..)
  | .driver .. => false

end Source

namespace Session

variable {s : Session} {h h' : List Stroke} {l l' : List Source}

/-- What is noted of effects in strokes comes from writes that succeed and from turns that are
granted their edges. -/
structure Booked (s : Session) (h : List Stroke) (l : List Source) : Prop where
  aside : ∀ a, .drive a ∈ h → a.isAside = true
  effects : (h.map Stroke.effects).sum
    = ((s.landed h).map Write.effects).sum + (l.map Source.effects).sum
  reports : ∀ w ∈ s.landed h, ∀ slot, w.token.slot? = some slot → .report slot .succeeded ∈ h

theorem Booked.append (hbooked : s.Booked h l) (hbooked' : (s.strikeAll h).Booked h' l') :
    s.Booked (h ++ h') (l ++ l') where
  aside a ha := (List.mem_append.1 ha).elim (hbooked.aside a) (hbooked'.aside a)
  effects := by
    rw [landed_append]
    simp only [List.map_append, List.sum_append, hbooked.effects, hbooked'.effects]
    exact add_add_add_comm ..
  reports w hw slot hslot := by
    rw [landed_append] at hw
    rcases List.mem_append.1 hw with hw | hw
    · exact List.mem_append_left _ (hbooked.reports w hw slot hslot)
    · exact List.mem_append_right _ (hbooked'.reports w hw slot hslot)

/-- Strokes without effects in which no write is applied. -/
theorem booked_of_idle (hnone : applies h = []) (haside : ∀ a, .drive a ∈ h → a.isAside = true)
    (hzero : ∀ σ ∈ h, σ.effects = 0) : s.Booked h [] where
  aside := haside
  effects := by
    have hsum : (h.map Stroke.effects).sum = 0 := List.sum_eq_zero fun x hx => by
      obtain ⟨σ, hσ, rfl⟩ := List.mem_map.1 hx
      exact hzero σ hσ
    rw [hsum, s.landed_eq_nil hnone]
    rfl
  reports w hw := by
    rw [s.landed_eq_nil hnone] at hw
    exact absurd hw List.not_mem_nil

theorem booked_calm (hcalm : ∀ σ ∈ h, σ.isCalm = true) (hzero : ∀ σ ∈ h, σ.effects = 0) :
    s.Booked h [] :=
  booked_of_idle (applies_of_calm hcalm) (fun _ ha => absurd (hcalm _ ha) Bool.false_ne_true) hzero

/-- A write that succeeds is counted when its submitter is told. -/
theorem sum_ofCompletion {w : Write Submitter} {c : Completion Submitter}
    (htoken : c.token = w.token) :
    ((Stroke.ofCompletion c).map Stroke.effects).sum = if c.result.isOk then w.effects else 0 := by
  obtain ⟨place, change, token⟩ := w
  obtain ⟨_, result, rejected⟩ := c
  obtain rfl : _ = token := htoken
  have hrejected : ((rejected.toList.map fun cause => Stroke.note (.log (.batchRejected cause))).map
      Stroke.effects).sum = 0 := by cases rejected <;> rfl
  rw [Stroke.ofCompletion, List.map_append, List.sum_append, hrejected, zero_add]
  cases ‹Submitter› with
  | outside name => cases result <;> rfl
  | partition request part edges hold =>
    cases hold <;> cases result <;>
      simp [Stroke.ofRelease, Node.notesOf, Stroke.effects, Event.effects, Signal.effects,
        Write.effects, Write.edges, Write.entries, Submitter.hold?, Except.isOk, Except.toBool]

/-- A write is applied and its submitter told. -/
theorem booked_apply (s : Session) (w : Write Submitter) :
    s.Booked (.apply w :: Stroke.ofCompletion (s.node.store.apply w).2) [] := by
  have hcalm := Stroke.isCalm_ofCompletion (s.node.store.apply w).2
  have htoken := s.node.store.apply_token w
  have hlanded : s.landed (.apply w :: Stroke.ofCompletion (s.node.store.apply w).2)
      = if (s.node.store.apply w).2.result.isOk then [w] else [] := by
    rw [landed, landed_eq_nil _ (applies_of_calm hcalm), List.append_nil]
    rfl
  refine ⟨fun a ha => ?_, ?_, fun w' hw' slot hslot => ?_⟩
  · rcases List.mem_cons.1 ha with heq | ha
    · cases heq
    · exact absurd (hcalm _ ha) Bool.false_ne_true
  · rw [hlanded, List.map_cons, List.sum_cons, sum_ofCompletion htoken]
    cases (s.node.store.apply w).2.result.isOk <;> simp [Stroke.effects]
  · rw [hlanded] at hw'
    cases hresult : (s.node.store.apply w).2.result with
    | error code => simp [hresult, Except.isOk, Except.toBool] at hw'
    | ok u =>
      simp only [hresult, Except.isOk, Except.toBool, if_true, List.mem_singleton] at hw'
      subst hw'
      rw [Stroke.ofCompletion, htoken, hresult]
      refine List.mem_cons_of_mem _ (List.mem_append_right _ ?_)
      cases htok : w'.token with
      | outside name => simp [htok, Submitter.slot?] at hslot
      | partition request part edges hold =>
        obtain rfl : ⟨request, part⟩ = slot := by simpa [htok, Submitter.slot?] using hslot
        exact List.mem_append_right _ (List.mem_singleton_self _)

theorem booked_ofWrites (s : Session) (ws : List (Write Submitter)) :
    s.Booked (Stroke.ofWrites s.node.store ws) [] := by
  induction ws generalizing s with
  | nil => exact booked_of_idle rfl (by simp [Stroke.ofWrites]) (by simp [Stroke.ofWrites])
  | cons w ws ih =>
    have hcalm := Stroke.isCalm_ofCompletion (s.node.store.apply w).2
    have hstore : (s.strikeAll (.apply w ::
        Stroke.ofCompletion (s.node.store.apply w).2)).node.store = (s.node.store.apply w).1 :=
      ((s.strike (.apply w)).strikeAll_calm hcalm).1
    exact (s.booked_apply w).append (hstore ▸ ih _)

theorem booked_ofSubmit (s : Session) (w : Write Submitter) :
    s.Booked (Stroke.ofSubmit s.node.store w) [] := by
  have hsubmit : s.Booked [.submit w] [] := booked_of_idle rfl (by simp) (by simp [Stroke.effects])
  have hrest : (s.strikeAll [.submit w]).Booked
      (if s.node.store.held.isSome then [] else Stroke.ofWrites s.node.store.counted [w]) [] := by
    cases hheld : s.node.store.held with
    | some queue => exact booked_of_idle rfl (by simp) (by simp)
    | none =>
      have hstore : (s.strikeAll [.submit w]).node.store = s.node.store.counted := by
        show { s.node.store.counted with held := s.node.store.held.map (· ++ [w]) } = _
        rw [hheld]
        show { s.node.store.counted with held := none } = _
        rw [← hheld]
        rfl
      exact hstore ▸ booked_ofWrites _ [w]
  exact hsubmit.append hrest

theorem booked_strokesOfWrite (s : Session) (t : Turn) (change : Change) (edges : Nat)
    (hold : Option Hold) : s.Booked (s.node.strokesOfWrite t change edges hold) [] := by
  rw [Node.strokesOfWrite]
  by_cases hlost : s.node.losesNext = true
  · rw [if_pos hlost]
    refine booked_calm (List.forall_mem_cons.2 ⟨rfl, Stroke.isCalm_ofRelease _ hold⟩)
      (List.forall_mem_cons.2 ⟨rfl, ?_⟩)
    cases hold <;> simp [Stroke.ofRelease, Stroke.effects]
  · rw [if_neg hlost]
    exact s.booked_ofSubmit _

/-! ### Turns -/

/-- Nothing that is noted while a plan is made is an effect. -/
theorem effects_ofPlanned {scene : Scene} {slot : Slot} {e : Event} (hshows : scene.Shows e) :
    (Stroke.ofPlanned slot e).effects = 0 := by
  cases e with
  | signal sig => exact absurd hshows id
  | call c => cases c <;> rfl
  | _ => rfl

/-- The deferrals of a turn are counted when it is granted its edges. -/
theorem booked_granted {n : Node} {t : Turn} {count : Nat} (hcount : n.deferralsIn t = count) :
    s.Booked [.note (.signal (.removalsDeferred (UInt64.ofNat count)))] [.turn n t] where
  aside a ha := by simp at ha
  effects := by
    rw [landed_eq_nil _ rfl, List.map_singleton, List.sum_singleton, List.map_singleton,
      List.sum_singleton, Source.effects, Source.deferrals, hcount]
    exact (zero_add _).symm
  reports w hw := absurd hw List.not_mem_nil

/-- A turn that defers nothing may end anywhere. -/
theorem Booked.turn {n : Node} {t : Turn} (hbooked : s.Booked h []) (hnone : n.deferralsIn t = 0) :
    s.Booked h [.turn n t] where
  aside := hbooked.aside
  effects := by
    rw [hbooked.effects, List.map_singleton, List.sum_singleton, Source.effects, Source.deferrals,
      hnone]
    rfl
  reports := hbooked.reports

theorem booked_strokesOfPlain (s : Session) {t : Turn} (hindexes : t.indexes.isEmpty = true) :
    s.Booked (s.node.strokesOfPlain t) [.turn s.node t] := by
  have hnone : s.node.deferralsIn t = 0 := by
    rw [Node.deferralsIn, Node.verdict, if_pos hindexes]
    cases t.edges.findSome? (Scene.widthError? t.vidLen) <;> rfl
  refine Booked.turn ?_ hnone
  rw [Node.strokesOfPlain]
  cases t.edges.findSome? (Scene.widthError? t.vidLen) with
  | some e => exact booked_calm (by simp [Stroke.isCalm]) (by simp [Stroke.effects, Event.effects])
  | none =>
    have hcall : s.Booked [.note (.call (.remove t.place
        (t.edges.map (Key.record t.vidLen t.place.part)) s.node.locks.size s.node.inflight))] [] :=
      booked_calm (by simp [Stroke.isCalm]) (by simp [Stroke.effects, Event.effects])
    exact hcall.append (booked_strokesOfWrite (s.strike (.note _)) t _ _ _)

/-- A turn in a space with indexes, from where its plan was made. -/
theorem booked_strokesOfPlanned (s : Session) {n : Node} {t : Turn}
    (hindexes : t.indexes.isEmpty = false) (hstore : s.node.store = (n.planned t).store)
    (hlost : s.node.losesNext = n.losesNext) :
    s.Booked (n.strokesOfPlanned t) [.turn n t] := by
  have hdeferrals := Node.deferralsIn_of_indexed (n := n) hindexes
  rw [Node.strokesOfPlanned]
  cases herror : (n.planOf t).error with
  | some e =>
    refine (booked_calm (by simp [Stroke.isCalm]) ?_).turn (by simp only [hdeferrals, herror])
    simp [Stroke.effects, Event.effects]
  | none =>
    cases hclaim : n.locks.claim t.ids with
    | error edge =>
      refine (booked_calm (by simp [Stroke.isCalm]) ?_).turn
        (by simp only [hdeferrals, herror, hclaim])
      simp [Stroke.effects, Event.effects, Signal.effects]
    | ok claimed =>
      obtain ⟨claimed, locks⟩ := claimed
      have hcount : n.deferralsIn t = (n.planOf t).steps.countP Step.isDeferral := by
        simp only [hdeferrals, herror, hclaim]
      have hclaimed : s.Booked [.claim t.slot claimed] [] :=
        booked_calm (by simp [Stroke.isCalm]) (by simp [Stroke.effects])
      have hcall : ∀ (m : Session) (c : Call), m.Booked [.note (.call c)] [] := fun m c =>
        booked_calm (by simp [Stroke.isCalm]) (by simp [Stroke.effects, Event.effects])
      have hwrite : ∀ (m : Session) change edges hold, m.node.store = s.node.store →
          m.node.losesNext = s.node.losesNext →
          m.Booked ((n.planned t).strokesOfWrite t change edges hold) [] := by
        intro m change edges hold hm hl
        rw [← strokesOfWrite_congr (hm.trans hstore)
          (hl.trans (hlost.trans (n.planned_losesNext t).symm))]
        exact m.booked_strokesOfWrite t change edges hold
      exact hclaimed.append ((booked_granted hcount).append
        ((hcall _ _).append (hwrite _ _ _ _ rfl rfl)))

/-- What is noted of effects in a turn is what it defers and what is counted of its write. -/
theorem booked_strokesOf (s : Session) (t : Turn) :
    s.Booked (s.node.strokesOf t) [.turn s.node t] := by
  rw [Node.strokesOf]
  cases hindexes : t.indexes.isEmpty with
  | true => exact s.booked_strokesOfPlain hindexes
  | false =>
    simp only [Bool.false_eq_true, if_false, Node.strokesOfIndexed]
    have hlooks : (s.strike (.track t.slot)).Booked
        ((s.node.planOf t).trace.map (Stroke.ofPlanned t.slot)) [] := by
      refine booked_calm (Stroke.isCalm_ofPlanned _ _) fun σ hσ => ?_
      obtain ⟨e, he, rfl⟩ := List.mem_map.1 hσ
      exact effects_ofPlanned (Scene.shows_plan he)
    have htracked : s.Booked [.track t.slot] [] :=
      booked_calm (by simp [Stroke.isCalm]) (by simp [Stroke.effects])
    have hspent : ∀ m : Session,
        m.Booked [.spend (s.node.planned t).store (s.node.planned t).sequencer] [] := fun m =>
      booked_of_idle rfl (by simp) (by simp [Stroke.effects])
    refine htracked.append (hlooks.append ((hspent _).append
      (booked_strokesOfPlanned _ hindexes rfl ?_)))
    show ((s.strike (.track t.slot)).strikeAll _).node.losesNext = s.node.losesNext
    rw [strikeAll_ofPlanned]
    exact (congrArg Node.losesNext (Node.quiet_emitAll _ _)).trans rfl

/-! ### Runs -/

theorem booked_strokesOfAll (s : Session) (ts : List Turn) :
    s.Booked (s.node.strokesOfAll ts) (s.node.sourcesOfAll ts) := by
  induction ts generalizing s with
  | nil => exact booked_of_idle rfl (by simp [Node.strokesOfAll]) (by simp [Node.strokesOfAll])
  | cons t ts ih =>
    refine (s.booked_strokesOf t).append ?_
    rw [strikeAll_strokesOf]
    exact ih { s with node := s.node.work t }

theorem booked_strokesOfRequest (s : Session) (r : DeleteRequest) :
    s.Booked (s.node.strokesOfRequest r) (s.node.sourcesOfRequest r) := by
  have harrival : s.Booked (s.node.strokesOfArrival r) [] := by
    refine booked_calm (List.forall_mem_cons.2 ⟨rfl, List.forall_mem_cons.2 ⟨rfl, ?_⟩⟩)
      (List.forall_mem_cons.2 ⟨rfl, List.forall_mem_cons.2 ⟨rfl, fun σ hσ => ?_⟩⟩)
    · exact Stroke.isCalm_notes _
    · obtain ⟨e, he, rfl⟩ := List.mem_map.1 hσ
      rcases s.node.of_mem_preface he with rfl | rfl | ⟨error, rfl | rfl⟩ <;> rfl
  have hparts : (s.strikeAll (s.node.strokesOfArrival r)).Booked (s.node.strokesOfParts r)
      (s.node.sourcesOfRequest r) := by
    rw [strikeAll_strokesOfArrival, Node.strokesOfParts, Node.sourcesOfRequest]
    cases s.node.turns r with
    | error e => exact booked_calm (by simp [Stroke.isCalm]) (by simp [Stroke.effects])
    | ok ts => exact booked_strokesOfAll { s with node := s.node.opened r, asked := _ } ts
  exact harrival.append hparts

theorem booked_strokesOfResume (s : Session) : s.Booked s.node.strokesOfResume [] := by
  have hunhold : s.Booked [.unhold] [] := booked_of_idle rfl (by simp) (by simp [Stroke.effects])
  exact hunhold.append (booked_ofWrites (s.strike .unhold) s.node.store.heldWrites)

theorem booked_drive (s : Session) {a : Action} (haside : a.isAside = true) :
    s.Booked [.drive a] [] := by
  refine booked_of_idle rfl (fun b hb => ?_) (by simp [Stroke.effects])
  rw [Stroke.drive.inj (List.mem_singleton.1 hb)]
  exact haside

theorem booked_strokes (s : Session) (a : Action) : s.Booked (s.strokes a) (s.sourcesOf a) := by
  cases a with
  | delete r => exact booked_strokesOfRequest s r
  | deleteDeferred r =>
    rw [strokes, sourcesOf]
    by_cases hheld : s.node.store.held.isSome = true
    · rw [if_pos hheld, if_pos hheld]
      exact booked_strokesOfRequest s r
    · rw [if_neg hheld, if_neg hheld]
      have hpaused : s.Booked [.drive .pause] [] := s.booked_drive rfl
      have hrequest : (s.strikeAll [.drive .pause]).Booked (s.node.pause.strokesOfRequest r)
          (s.node.pause.sourcesOfRequest r) :=
        booked_strokesOfRequest { s with node := s.node.pause } r
      have hresumed : ((s.strikeAll [.drive .pause]).strikeAll
          (s.node.pause.strokesOfRequest r)).Booked (s.node.pause.process r).2.strokesOfResume
            [] := by
        rw [show s.strikeAll [.drive .pause] = { s with node := s.node.pause } from rfl,
          strikeAll_strokesOfRequest]
        exact booked_strokesOfResume
          { s with node := (s.node.pause.process r).2, asked := s.asked ++ [r] }
      simpa using hpaused.append (hrequest.append hresumed)
  | resume => exact booked_strokesOfResume s
  | submit name place change =>
    have hbooked := s.booked_ofSubmit ⟨place, change, .outside name⟩
    refine ⟨hbooked.aside, ?_, hbooked.reports⟩
    exact hbooked.effects
  | _ => exact s.booked_drive rfl

/-- All effects that are noted in a run come from writes that succeed and from turns that are
granted their edges. -/
theorem booked_timeline (s : Session) (actions : List Action) :
    s.Booked (s.timeline actions) (s.sources actions) := by
  induction actions generalizing s with
  | nil => exact booked_of_idle rfl (by simp [timeline]) (by simp [timeline])
  | cons a actions ih =>
    refine (s.booked_strokes a).append ?_
    rw [strikeAll_strokes]
    exact ih (s.act a)

end Session

end EdgeDeletion
