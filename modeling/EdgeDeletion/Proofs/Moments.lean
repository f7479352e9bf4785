/-
The moments of a run.

At every moment of a run the strokes so far make an orderly life of every slot, and what a
stroke says of its moment is true:

* `inflight_strikeAll` — the count of writes in flight is the number of slots that were
  counted and not yet counted out, and of what the driver counts;
* `truthful_timeline` — a look at an index state shows the state and the count of its
  moment, a request gets the next number, a write gets lost just if the driver wants it, a
  plan submits nothing, and no failure is signalled besides those that are reported.
-/
import EdgeDeletion.Proofs.Lives
import Mathlib.Data.List.Induction
import Mathlib.Data.List.Perm.Subperm

namespace EdgeDeletion

/-! ### The count -/

namespace Stroke

def tracked? : Stroke → Option Slot
  | .track slot => some slot
  | _ => none

def untracked? : Stroke → Option Slot
  | .untrack slot => some slot
  | _ => none

theorem IsElsewhere.slot?_ne {l : Slot} {σ : Stroke} (h : σ.IsElsewhere l) :
    σ.slot? ≠ some l := by
  cases σ with
  | arrive | drive => exact nofun
  | _ => exact h

end Stroke

/-- The slots that were counted, as often as they were. -/
def tracks (h : List Stroke) : List Slot := h.filterMap Stroke.tracked?

/-- The slots that were counted out. -/
def untracks (h : List Stroke) : List Slot := h.filterMap Stroke.untracked?

theorem tracks_append (h h' : List Stroke) : tracks (h ++ h') = tracks h ++ tracks h' :=
  List.filterMap_append

theorem untracks_append (h h' : List Stroke) : untracks (h ++ h') = untracks h ++ untracks h' :=
  List.filterMap_append

namespace Phase

variable {l : Slot} {p q : Phase} {σ : Stroke} {h : List Stroke}

/-- A slot becomes counted and stops being so by the strokes that count. -/
theorem Next.count (hnext : Next l p σ q) :
    (tracks [σ]).count l + p.isCounted.toNat = (untracks [σ]).count l + q.isCounted.toNat := by
  have htrack : [l].count l + 0 = ([] : List Slot).count l + 1 := by simp
  have huntrack : ([] : List Slot).count l + 1 = [l].count l + 0 := by simp
  cases hnext with
  | elsewhere helse =>
    have hslot := helse.slot?_ne
    have hother : ∀ {slot}, some slot ≠ some l → [slot].count l = 0 := fun hne =>
      List.count_eq_zero.2 fun hmem => hne (congrArg some (List.mem_singleton.1 hmem).symm)
    cases σ with
    | track slot => exact congrArg (· + p.isCounted.toNat) (hother hslot)
    | untrack slot => exact (congrArg (· + p.isCounted.toNat) (hother hslot)).symm
    | _ => rfl
  | track => exact htrack
  | untrackRefused | untrackLost | untrack => exact huntrack
  | submitPlain hslot hhold => exact congrArg (fun hold => 0 + hold.isSome.toNat) hhold.symm
  | submit hslot hhold => exact congrArg (fun hold => 0 + hold.isSome.toNat) hhold.symm
  | _ => rfl

theorem Leads.count (hleads : Leads l p h q) :
    (tracks h).count l + p.isCounted.toNat = (untracks h).count l + q.isCounted.toNat := by
  induction hleads with
  | nil => rfl
  | @cons p q r σ h hnext _ ih =>
    have hcount := hnext.count
    rw [← List.singleton_append, tracks_append, untracks_append, List.count_append,
      List.count_append]
    omega

end Phase

namespace Session

open Phase

variable {s : Session} {h : List Stroke} {l : Slot} {p : Phase}

/-- Nothing is counted out that was not counted before. -/
theorem untracks_subperm (horderly : Orderly h) : (untracks h).Subperm (tracks h) := by
  rw [List.subperm_ext_iff]
  intro l _
  obtain ⟨p, hleads⟩ := horderly l
  have hcount := hleads.count
  simp only [isCounted, Bool.toNat_false] at hcount
  omega

/-- With a slot that is still counted, fewer are counted out than were counted. -/
theorem length_untracks_lt (horderly : Orderly h) (hleads : Leads l .absent h p)
    (hcounted : p.isCounted = true) : (untracks h).length < (tracks h).length := by
  by_contra hle
  have hperm := (untracks_subperm horderly).perm_of_length_le (Nat.not_lt.1 hle)
  have hcount := hleads.count
  rw [hperm.count_eq, hcounted] at hcount
  simp only [isCounted, Bool.toNat_false, Bool.toNat_true] at hcount
  omega

theorem Orderly.init {σ : Stroke} (horderly : Orderly (h ++ [σ])) :
    Orderly h ∧ ∀ l, ∃ p q, Leads l .absent h p ∧ Next l p σ q := by
  have hinit : ∀ l, ∃ p q, Leads l .absent h p ∧ Next l p σ q := by
    intro l
    obtain ⟨r, hleads⟩ := horderly l
    obtain ⟨p, hp, hlast⟩ := leads_append_iff.1 hleads
    obtain _ | ⟨hnext, _⟩ := hlast
    exact ⟨p, _, hp, hnext⟩
  refine ⟨fun l => ?_, hinit⟩
  obtain ⟨p, q, hp, -⟩ := hinit l
  exact ⟨p, hp⟩

/-- The driver counts with what it has counted. -/
theorem inflight_aside (s : Session) {a : Action} (haside : a.isAside = true)
    (hle : s.tracked ≤ s.node.inflight) :
    (s.act a).node.inflight + s.tracked = s.node.inflight + (s.act a).tracked := by
  cases a with
  | delete r | deleteDeferred r | resume | submit name place change =>
    simp [Action.isAside] at haside
  | put place key value =>
    rw [act]
    cases s.node.store.put place key value <;> rfl
  | lock edges =>
    rw [act, Node.claim]
    cases s.node.locks.claim edges <;> rfl
  | unlock i =>
    rw [act]
    cases s.guards[i]? <;> rfl
  | track =>
    show s.node.inflight + 1 + s.tracked = s.node.inflight + (s.tracked + 1)
    omega
  | untrack =>
    rw [act]
    by_cases hnone : s.tracked = 0
    · rw [if_pos hnone]
    · rw [if_neg hnone]
      show s.node.inflight - 1 + s.tracked = s.node.inflight + (s.tracked - 1)
      omega
  | _ => rfl

/-- At every moment the count is that of the slots that were counted and not yet counted out, and
of what the driver counts. -/
theorem inflight_strikeAll (hstart : s.node.inflight = s.tracked) (horderly : Orderly h) :
    (s.strikeAll h).node.inflight + (untracks h).length
      = (tracks h).length + (s.strikeAll h).tracked := by
  induction h using List.reverseRecOn with
  | nil => simpa [tracks, untracks] using hstart
  | append_singleton h σ ih =>
    obtain ⟨hinit, hnext⟩ := horderly.init
    have ih := ih hinit
    have hle := (untracks_subperm hinit).length_le
    rw [strikeAll_append, tracks_append, untracks_append, List.length_append, List.length_append,
      strikeAll_cons, strikeAll_nil]
    generalize s.strikeAll h = m at ih
    cases σ with
    | track slot =>
      show m.node.inflight + 1 + ((untracks h).length + 0) = (tracks h).length + 1 + m.tracked
      omega
    | untrack slot =>
      -- the slot is counted at this moment, so the count is not zero
      obtain ⟨p, q, hleads, hstep⟩ := hnext slot
      have hcounted : p.isCounted = true := by
        cases hstep with
        | elsewhere helse => exact absurd rfl helse.slot?_ne
        | _ => rfl
      have hlt := length_untracks_lt hinit hleads hcounted
      show m.node.inflight - 1 + ((untracks h).length + 1) = (tracks h).length + 0 + m.tracked
      omega
    | drive a =>
      obtain ⟨p, q, -, hstep⟩ := hnext ⟨0, 0⟩
      have haside : a.isAside = true := by
        cases hstep with
        | elsewhere helse => exact helse
      have hdrive := m.inflight_aside haside (by omega)
      show (m.act a).node.inflight + ((untracks h).length + 0)
        = (tracks h).length + 0 + (m.act a).tracked
      omega
    | refuse slot code | report slot code =>
      show (m.node.report slot.request slot.part code).inflight + _ = _ + m.tracked
      rw [Node.inflight_report]
      exact ih
    | arrive request r =>
      have hinflight : (m.strike (.arrive request r)).node.inflight = m.node.inflight :=
        (congrArg Node.inflight (m.quiet_strike_arrive request r)).trans rfl
      rw [hinflight]
      exact ih
    | _ => exact ih

theorem inflight_pos (hstart : s.node.inflight = s.tracked) (horderly : Orderly h)
    (hleads : Leads l .absent h p) (hcounted : p.isCounted = true) :
    0 < (s.strikeAll h).node.inflight := by
  have hcount := inflight_strikeAll hstart horderly
  have hlt := length_untracks_lt horderly hleads hcounted
  omega

/-- When the count is zero, no slot is counted. -/
theorem not_counted_of_drained (hstart : s.node.inflight = s.tracked) (horderly : Orderly h)
    (hdrained : (s.strikeAll h).node.inflight = 0) (hleads : Leads l .absent h p) :
    p.isCounted = false := by
  by_contra hcounted
  have hpos := inflight_pos hstart horderly hleads (by simpa using hcounted)
  omega

end Session

/-! ### What strokes say of their moments -/

/-- What a stroke says of the moment at which it is done.  A note says that nothing has failed,
since failures are reported. -/
def Stroke.IsTrueAt (s : Session) : Stroke → Prop
  | .note e => e.isFailure = false
  | .look slot e => ∃ space index, e = .call (.indexState ⟨space, slot.part⟩ index
      (s.node.markers.state ⟨space, slot.part⟩ index) s.node.inflight)
  | .arrive request _ => request = s.node.requests.length
  | .lose _ => s.node.losesNext = true
  | .spend store _ => store.submissions = s.node.store.submissions
  | _ => True

/-- Whether what a stroke says is true of every moment. -/
def Stroke.isMute : Stroke → Bool
  | .note e => !e.isFailure
  | .look .. | .arrive .. | .lose _ | .spend .. => false
  | _ => true

/-- What strokes say of their moments is true. -/
def Session.Truthful (s : Session) : List Stroke → Prop
  | [] => True
  | σ :: h => σ.IsTrueAt s ∧ (s.strike σ).Truthful h

namespace Session

theorem truthful_append {s : Session} {h h' : List Stroke} :
    s.Truthful (h ++ h') ↔ s.Truthful h ∧ (s.strikeAll h).Truthful h' := by
  induction h generalizing s with
  | nil => exact (iff_of_eq (true_and _)).symm
  | cons σ h ih =>
    show _ ∧ (s.strike σ).Truthful (h ++ h') ↔ (_ ∧ (s.strike σ).Truthful h) ∧ _
    rw [ih, and_assoc]
    rfl

theorem truthful_of_mute {h : List Stroke} (hmute : ∀ σ ∈ h, σ.isMute = true) (s : Session) :
    s.Truthful h := by
  induction h generalizing s with
  | nil => trivial
  | cons σ h ih =>
    refine ⟨?_, ih (fun σ hσ => hmute σ (List.mem_cons_of_mem _ hσ)) _⟩
    have hσ := hmute σ (List.mem_cons_self ..)
    cases σ with
    | note e => simpa [Stroke.isMute, Stroke.IsTrueAt] using hσ
    | look | arrive | lose | spend => simp [Stroke.isMute] at hσ
    | _ => trivial

end Session

/-! ### The looks of a plan -/

namespace Scene

/-- A look at an index state shows what the scene shows, nothing is signalled, and no edge is told
to be held. -/
def Shows (s : Scene) : Event → Prop
  | .call (.indexState place index state inflight) =>
    place = s.place ∧ state = s.markers.state place index ∧ inflight = s.inflight
  | .signal _ | .log (.lockConflict ..) => False
  | _ => True

end Scene

theorem Plan.mem_trace_andThen {p q : Plan} {e : Event} (he : e ∈ (p.andThen q).trace) :
    e ∈ p.trace ∨ e ∈ q.trace := by
  obtain ⟨steps, trace, error⟩ := p
  cases error with
  | none => exact List.mem_append.1 he
  | some error => exact .inl he

theorem Plan.mem_trace_sequence {ps : List Plan} {e : Event} (he : e ∈ (sequence ps).trace) :
    ∃ p ∈ ps, e ∈ p.trace := by
  induction ps with
  | nil => simp [sequence, done] at he
  | cons p ps ih =>
    rcases mem_trace_andThen he with he | he
    · exact ⟨p, List.mem_cons_self .., he⟩
    · obtain ⟨q, hq, he⟩ := ih he
      exact ⟨q, List.mem_cons_of_mem _ hq, he⟩

namespace Scene

variable {s : Scene} {e : Event}

theorem shows_entryPlan {edge : Edge} {row : Row} {index : Index}
    (he : e ∈ (s.entryPlan edge row index).trace) : s.Shows e := by
  rw [entryPlan] at he
  cases himage : Image.ofRow row index.columns with
  | error cause =>
    rw [himage] at he
    rw [List.mem_singleton.1 he]
    trivial
  | ok image =>
    rw [himage] at he
    rcases Plan.mem_trace_andThen he with he | he
    · rw [List.mem_singleton.1 he]
      exact ⟨rfl, rfl, rfl⟩
    · -- what is done about the state leaves no trace
      cases hstate : s.markers.state s.place index.id <;>
        simp [hstate, Plan.fail, Plan.ofSteps] at he

theorem shows_entriesPlan {edge : Edge} {raw : Bytes}
    (he : e ∈ (s.entriesPlan edge raw).trace) : s.Shows e := by
  rw [entriesPlan] at he
  cases hindexes : s.indexes.filter fun i => i.edgeType == edge.type with
  | nil => simp [hindexes, Plan.done] at he
  | cons index indexes =>
    rw [hindexes] at he
    rcases Plan.mem_trace_andThen he with he | he
    · rw [List.mem_singleton.1 he]
      trivial
    · cases hrow : s.catalog.decodeRow s.place.space edge.type raw with
      | error source => simp [hrow, Plan.fail] at he
      | ok row =>
        simp only [hrow] at he
        obtain ⟨p, hp, he⟩ := Plan.mem_trace_sequence he
        obtain ⟨i, -, rfl⟩ := List.mem_map.1 hp
        exact shows_entryPlan he

theorem shows_keysPlan {edge : Edge} {found : List (Bytes × Bytes)}
    (he : e ∈ (s.keysPlan edge found).trace) : s.Shows e := by
  have hlock : (fun e : Bytes × Bytes => Key.kind s.vidLen e.1 == .lock) = s.isLock := rfl
  simp only [keysPlan, hlock] at he
  rcases Plan.mem_trace_andThen he with he | he
  · simp [Plan.ofSteps] at he
  · cases hrest : found.dropWhile s.isLock with
    | nil => simp [hrest, Plan.done] at he
    | cons first rest =>
      obtain ⟨key, raw⟩ := first
      simp only [hrest] at he
      by_cases hkey : Key.kind s.vidLen key = .record
      · rw [if_pos hkey] at he
        rcases Plan.mem_trace_andThen he with he | he
        · exact shows_entriesPlan he
        · simp [Plan.andThen, Plan.ofSteps] at he
      · rw [if_neg hkey] at he
        simp [Plan.ofSteps] at he

universe u

variable {τ : Type u}

theorem shows_edgePlan {store : Store τ} {edge : Edge}
    (he : e ∈ (s.edgePlan store edge).2.trace) : s.Shows e := by
  rw [edgePlan] at he
  cases hwidth : widthError? s.vidLen edge with
  | some error => simp [hwidth, Plan.fail] at he
  | none =>
    simp only [hwidth] at he
    rcases Plan.mem_trace_andThen he with he | he
    · rw [List.mem_singleton.1 he]
      trivial
    · cases hfound : (store.scan s.place (Key.edgePrefix s.vidLen s.place.part edge)).2 with
      | error code => simp [hfound, Plan.fail] at he
      | ok found =>
        simp only [hfound] at he
        exact shows_keysPlan he

theorem shows_plan {store : Store τ} {edges : List Edge}
    (he : e ∈ (s.plan store edges).2.trace) : s.Shows e := by
  induction edges generalizing store with
  | nil => simp [plan, Plan.done] at he
  | cons edge edges ih =>
    simp only [plan] at he
    by_cases herror : (s.edgePlan store edge).2.error.isSome = true
    · rw [if_pos herror] at he
      exact shows_edgePlan he
    · rw [if_neg herror] at he
      rcases Plan.mem_trace_andThen he with he | he
      · exact shows_edgePlan he
      · exact ih he

end Scene

/-! ### What is said in a run -/

theorem Stroke.isMute_of_isEnding {σ : Stroke} (h : σ.isEnding = true) : σ.isMute = true := by
  cases σ with
  | note e => exact h
  | look | arrive | lose | spend => simp [isEnding] at h
  | _ => rfl

namespace Session

theorem truthful_of_ending {h : List Stroke} (hending : ∀ σ ∈ h, σ.isEnding = true)
    (s : Session) : s.Truthful h :=
  truthful_of_mute (fun σ hσ => Stroke.isMute_of_isEnding (hending σ hσ)) s

theorem truthful_notes (s : Session) {es : List Event}
    (hes : ∀ e ∈ es, e.isFailure = false) : s.Truthful (es.map .note) :=
  truthful_of_mute (by simpa [Stroke.isMute] using hes) s

theorem isFailure_of_mem_preface {n : Node} {r : DeleteRequest} {e : Event}
    (he : e ∈ n.preface r) : e.isFailure = false := by
  rcases Node.of_mem_preface _ he with rfl | rfl | ⟨error, rfl | rfl⟩ <;> rfl

theorem truthful_ofSubmit (s : Session) (store : Store Submitter) (w : Write Submitter) :
    s.Truthful (Stroke.ofSubmit store w) := by
  refine ⟨trivial, ?_⟩
  split
  · trivial
  · exact truthful_of_ending (Stroke.isEnding_ofWrites _ _) _

theorem truthful_strokesOfWrite (s : Session) {n : Node} (hlost : s.node.losesNext = n.losesNext)
    (t : Turn) (change : Change) (edges : Nat) (hold : Option Hold) :
    s.Truthful (n.strokesOfWrite t change edges hold) := by
  rw [Node.strokesOfWrite]
  by_cases hloses : n.losesNext = true
  · rw [if_pos hloses]
    exact ⟨hlost.trans hloses, truthful_of_ending (Stroke.isEnding_ofRelease _ _) _⟩
  · rw [if_neg hloses]
    exact truthful_ofSubmit ..

theorem truthful_ofPlanned (s : Session) {scene : Scene} {slot : Slot} {es : List Event}
    (hes : ∀ e ∈ es, scene.Shows e) (hpart : scene.place.part = slot.part)
    (hmarkers : s.node.markers = scene.markers) (hinflight : s.node.inflight = scene.inflight) :
    s.Truthful (es.map (Stroke.ofPlanned slot)) := by
  induction es generalizing s with
  | nil => trivial
  | cons e es ih =>
    have hrest : ∀ s' : Session, s' = { s with node := s.node.emit e } →
        s'.Truthful (es.map (Stroke.ofPlanned slot)) := by
      rintro s' rfl
      exact ih _ (fun e he => hes e (List.mem_cons_of_mem _ he)) hmarkers hinflight
    have hshows := hes e (List.mem_cons_self ..)
    cases e with
    | call c =>
      cases c with
      | indexState place index state inflight =>
        obtain ⟨rfl, rfl, rfl⟩ := hshows
        refine ⟨⟨scene.place.space, index, ?_⟩, hrest _ rfl⟩
        rw [← hpart, hmarkers, hinflight]
      | _ => exact ⟨rfl, hrest _ rfl⟩
    | signal signal => exact hshows.elim
    | _ => exact ⟨rfl, hrest _ rfl⟩

theorem truthful_strokesOfPlanned (s : Session) {n : Node} {t : Turn}
    (hlost : s.node.losesNext = n.losesNext) : s.Truthful (n.strokesOfPlanned t) := by
  rw [Node.strokesOfPlanned]
  cases (n.planOf t).error with
  | some e => exact ⟨rfl, trivial, trivial, trivial⟩
  | none =>
    cases n.locks.claim t.ids with
    | error edge => exact ⟨rfl, rfl, trivial, trivial, trivial⟩
    | ok claimed =>
      refine ⟨trivial, rfl, rfl, truthful_strokesOfWrite _ ?_ ..⟩
      rw [n.planned_losesNext t]
      exact hlost

theorem truthful_strokesOf (s : Session) (t : Turn) : s.Truthful (s.node.strokesOf t) := by
  rw [Node.strokesOf]
  by_cases hindexes : t.indexes.isEmpty = true
  · rw [if_pos hindexes, Node.strokesOfPlain]
    cases t.edges.findSome? (Scene.widthError? t.vidLen) with
    | some e => exact ⟨rfl, trivial, trivial⟩
    | none => exact ⟨rfl, truthful_strokesOfWrite _ rfl ..⟩
  · rw [if_neg hindexes]
    refine ⟨trivial, truthful_append.2 ⟨?_, ?_, truthful_strokesOfPlanned _ ?_⟩⟩
    · have hshows : ∀ e ∈ (s.node.planOf t).trace, (s.node.scene t).Shows e :=
        fun e he => Scene.shows_plan he
      exact truthful_ofPlanned _ hshows rfl rfl rfl
    · rw [strikeAll_ofPlanned]
      have hquiet := s.node.track.quiet_emitAll (s.node.planOf t).trace
      exact (s.node.planned_submissions t).trans
        (congrArg (·.store.submissions) hquiet).symm
    · rw [strikeAll_ofPlanned]
      have hquiet := s.node.track.quiet_emitAll (s.node.planOf t).trace
      exact (congrArg Node.losesNext hquiet).trans rfl

theorem truthful_strokesOfAll (s : Session) (ts : List Turn) :
    s.Truthful (s.node.strokesOfAll ts) := by
  induction ts generalizing s with
  | nil => trivial
  | cons t ts ih =>
    refine truthful_append.2 ⟨s.truthful_strokesOf t, ?_⟩
    rw [strikeAll_strokesOf]
    exact ih { s with node := s.node.work t }

theorem truthful_strokesOfRequest (s : Session) (r : DeleteRequest) :
    s.Truthful (s.node.strokesOfRequest r) := by
  refine truthful_append.2 ⟨⟨rfl, rfl, truthful_notes _ fun e => isFailure_of_mem_preface⟩, ?_⟩
  rw [strikeAll_strokesOfArrival, Node.strokesOfParts]
  cases s.node.turns r with
  | error e => exact truthful_of_mute (by simp [Stroke.isMute]) _
  | ok ts => exact truthful_strokesOfAll { s with node := s.node.opened r, asked := _ } ts

theorem truthful_strokesOfResume (s : Session) (n : Node) : s.Truthful n.strokesOfResume :=
  ⟨trivial, truthful_of_ending (Stroke.isEnding_ofWrites _ _) _⟩

theorem truthful_strokes (s : Session) (a : Action) : s.Truthful (s.strokes a) := by
  cases a with
  | delete r => exact truthful_strokesOfRequest s r
  | deleteDeferred r =>
    rw [strokes]
    by_cases hheld : s.node.store.held.isSome = true
    · rw [if_pos hheld]
      exact truthful_strokesOfRequest s r
    · rw [if_neg hheld]
      exact ⟨trivial, truthful_append.2
        ⟨truthful_strokesOfRequest { s with node := s.node.pause } r, truthful_strokesOfResume ..⟩⟩
  | resume => exact truthful_strokesOfResume s s.node
  | submit name place change => exact truthful_ofSubmit ..
  | _ => exact ⟨trivial, trivial⟩

/-- What strokes say of their moments is true throughout a run. -/
theorem truthful_timeline (s : Session) (actions : List Action) :
    s.Truthful (s.timeline actions) := by
  induction actions generalizing s with
  | nil => trivial
  | cons a actions ih =>
    refine truthful_append.2 ⟨s.truthful_strokes a, ?_⟩
    rw [strikeAll_strokes]
    exact ih (s.act a)

/-- What a stroke of a run says is true of the moment at which it is done. -/
theorem isTrueAt_of_timeline {s : Session} {actions : List Action} {before after : List Stroke}
    {σ : Stroke} (hsplit : s.timeline actions = before ++ σ :: after) :
    σ.IsTrueAt (s.strikeAll before) := by
  have htruthful := s.truthful_timeline actions
  rw [hsplit] at htruthful
  exact (truthful_append.1 htruthful).2.1

end Session

end EdgeDeletion
