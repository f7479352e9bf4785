/-
The slots of the strokes.

Most strokes belong to the slot of a partition, and others to none.  What is done for some
slots leaves all the others, and whatever is no part of the work for slots, as it was.

* `isWithin_strokesOf` — the strokes of a turn are those of its own slot and of none;
* `isEnding_ofWrites` — the kinds of strokes with which writes end;
* `strikeAll_within` — the work for slots brings no new requests.
-/
import EdgeDeletion.Proofs.Accounts
import EdgeDeletion.Proofs.Timeline

namespace EdgeDeletion

/-- Whether an action is neither a request nor a write nor the end of a pause. -/
def Action.isAside : Action → Bool
  | .delete _ | .deleteDeferred _ | .resume | .submit .. => false
  | _ => true

namespace Stroke

/-- The slot to which a stroke belongs. -/
def slot? : Stroke → Option Slot
  | .look slot _ | .track slot | .untrack slot | .claim slot _ | .release slot _ | .lose slot
  | .refuse slot _ | .report slot _ => some slot
  | .submit w | .apply w => w.token.slot?
  | .note _ | .spend .. | .arrive .. | .unhold | .drive _ => none

/-- A stroke that is no part of the life of a slot. -/
def IsElsewhere (l : Slot) : Stroke → Prop
  | .arrive request r => request = l.request → l.part ∉ r.parts.keys
  | .drive a => a.isAside = true
  | σ => σ.slot? ≠ some l

end Stroke

/-! ### Strokes of given slots -/

namespace Stroke

variable {P : Slot → Prop} {l slot : Slot}

/-- A stroke within the work for slots of some kind. -/
def IsWithin (P : Slot → Prop) : Stroke → Prop
  | .arrive .. | .unhold | .drive _ => False
  | σ => ∀ l, σ.slot? = some l → P l

theorem IsWithin.isElsewhere {σ : Stroke} (h : σ.IsWithin (· ≠ l)) : σ.IsElsewhere l := by
  cases σ with
  | arrive | unhold | drive => exact h.elim
  | _ => exact fun hslot => h l hslot rfl

theorem isWithin_note (e : Event) : (Stroke.note e).IsWithin P :=
  fun _ h => absurd h (Option.some_ne_none _).symm

theorem isWithin_notes (es : List Event) : ∀ σ ∈ es.map Stroke.note, σ.IsWithin P := by
  intro σ hσ
  obtain ⟨e, -, rfl⟩ := List.mem_map.1 hσ
  exact isWithin_note e

theorem isWithin_ofRelease (hP : P slot) (hold : Option Hold) :
    ∀ σ ∈ ofRelease slot hold, σ.IsWithin P := by
  have hslot : ∀ l, some slot = some l → P l := fun l h => Option.some.inj h ▸ hP
  cases hold with
  | none => simp [ofRelease]
  | some hold =>
    simp only [ofRelease, List.mem_cons, List.not_mem_nil, or_false]
    rintro σ (rfl | rfl) <;> exact hslot

theorem isWithin_ofCompletion {c : Completion Submitter}
    (hP : ∀ l, c.token.slot? = some l → P l) : ∀ σ ∈ ofCompletion c, σ.IsWithin P := by
  obtain ⟨token, result, rejected⟩ := c
  have hrejected : ∀ σ ∈ rejected.toList.map fun cause => Stroke.note (.log (.batchRejected cause)),
      σ.IsWithin P := by
    intro σ hσ
    obtain ⟨cause, -, rfl⟩ := List.mem_map.1 hσ
    exact isWithin_note _
  cases token with
  | outside name =>
    intro σ hσ
    rcases List.mem_append.1 hσ with hσ | hσ
    · exact hrejected σ hσ
    · rw [List.mem_singleton.1 hσ]
      exact isWithin_note _
  | partition request part edges hold =>
    intro σ hσ
    simp only [ofCompletion, List.mem_append, List.mem_singleton] at hσ
    rcases hσ with hσ | (hσ | hσ) | rfl
    · exact hrejected σ hσ
    · exact isWithin_ofRelease (hP _ rfl) hold σ hσ
    · exact isWithin_notes _ σ hσ
    · exact hP

theorem isWithin_ofWrites {ws : List (Write Submitter)}
    (hP : ∀ w ∈ ws, ∀ l, w.token.slot? = some l → P l) (s : Store Submitter) :
    ∀ σ ∈ ofWrites s ws, σ.IsWithin P := by
  induction ws generalizing s with
  | nil => simp [ofWrites]
  | cons w ws ih =>
    have hw := hP w (List.mem_cons_self ..)
    intro σ hσ
    simp only [ofWrites, List.cons_append, List.mem_cons, List.mem_append] at hσ
    rcases hσ with rfl | hσ | hσ
    · exact hw
    · exact isWithin_ofCompletion (by rwa [s.apply_token w]) σ hσ
    · exact ih (fun w hw => hP w (List.mem_cons_of_mem _ hw)) _ σ hσ

theorem isWithin_ofSubmit {w : Write Submitter} (hP : ∀ l, w.token.slot? = some l → P l)
    (s : Store Submitter) : ∀ σ ∈ ofSubmit s w, σ.IsWithin P := by
  intro σ hσ
  rcases List.mem_cons.1 hσ with rfl | hσ
  · exact hP
  · by_cases hheld : s.held.isSome = true
    · simp [hheld] at hσ
    · rw [if_neg hheld] at hσ
      refine isWithin_ofWrites ?_ _ σ hσ
      intro w' hw'
      rwa [List.mem_singleton.1 hw']

theorem isWithin_ofPlanned (hP : P slot) (es : List Event) :
    ∀ σ ∈ es.map (ofPlanned slot), σ.IsWithin P := by
  intro σ hσ
  obtain ⟨e, -, rfl⟩ := List.mem_map.1 hσ
  have hslot : ∀ l, some slot = some l → P l := fun l h => Option.some.inj h ▸ hP
  cases e with
  | call c =>
    cases c with
    | indexState => exact hslot
    | _ => exact isWithin_note _
  | _ => exact isWithin_note _

/-- Whether a stroke is one of those with which a write ends. -/
def isEnding : Stroke → Bool
  | .note e => !e.isFailure
  | .untrack _ | .release .. | .apply _ | .report .. => true
  | _ => false

theorem isEnding_ofRelease (slot : Slot) (hold : Option Hold) :
    ∀ σ ∈ ofRelease slot hold, σ.isEnding = true := by
  cases hold <;> simp [ofRelease, isEnding]

theorem isEnding_of_mem_notesOf {part : PartId} {edges : Nat} {hold : Option Hold}
    {result : Except StoreCode Unit} {e : Event} (he : e ∈ Node.notesOf part edges hold result) :
    (note e).isEnding = true := by
  cases result with
  | ok u =>
    rcases List.mem_cons.1 he with rfl | he
    · rfl
    · obtain ⟨h, -, rfl⟩ := List.mem_map.1 he
      rfl
  | error code =>
    rw [List.mem_singleton.1 he]
    rfl

theorem isEnding_ofCompletion (c : Completion Submitter) :
    ∀ σ ∈ ofCompletion c, σ.isEnding = true := by
  obtain ⟨token, result, rejected⟩ := c
  intro σ hσ
  rcases List.mem_append.1 hσ with hσ | hσ
  · obtain ⟨cause, -, rfl⟩ := List.mem_map.1 hσ
    rfl
  · cases token with
    | outside name =>
      rw [List.mem_singleton.1 hσ]
      rfl
    | partition request part edges hold =>
      simp only [List.mem_append, List.mem_map, List.mem_singleton] at hσ
      rcases hσ with (hσ | ⟨e, he, rfl⟩) | rfl
      · exact isEnding_ofRelease _ hold σ hσ
      · exact isEnding_of_mem_notesOf he
      · rfl

theorem isEnding_ofWrites (s : Store Submitter) (ws : List (Write Submitter)) :
    ∀ σ ∈ ofWrites s ws, σ.isEnding = true := by
  induction ws generalizing s with
  | nil => simp [ofWrites]
  | cons w ws ih =>
    intro σ hσ
    simp only [ofWrites, List.cons_append, List.mem_cons, List.mem_append] at hσ
    rcases hσ with rfl | hσ | hσ
    · rfl
    · exact isEnding_ofCompletion _ σ hσ
    · exact ih _ σ hσ

end Stroke

namespace Node

variable {P : Slot → Prop} {t : Turn}

theorem isWithin_strokesOfWrite (n : Node) (hP : P t.slot) (change : Change) (edges : Nat)
    (hold : Option Hold) : ∀ σ ∈ n.strokesOfWrite t change edges hold, σ.IsWithin P := by
  have hslot : ∀ l, some t.slot = some l → P l := fun l h => Option.some.inj h ▸ hP
  intro σ hσ
  rw [strokesOfWrite] at hσ
  by_cases hlost : n.losesNext = true
  · rw [if_pos hlost] at hσ
    rcases List.mem_cons.1 hσ with rfl | hσ
    · exact hslot
    · exact Stroke.isWithin_ofRelease hP hold σ hσ
  · rw [if_neg hlost] at hσ
    have hwrite : ∀ l, (t.write change edges hold).token.slot? = some l → P l := hslot
    exact Stroke.isWithin_ofSubmit hwrite _ σ hσ

/-- The strokes of a turn are those of its own slot and of none. -/
theorem isWithin_strokesOf (n : Node) (hP : P t.slot) : ∀ σ ∈ n.strokesOf t, σ.IsWithin P := by
  have hslot : ∀ l, some t.slot = some l → P l := fun l h => Option.some.inj h ▸ hP
  intro σ hσ
  rw [strokesOf] at hσ
  by_cases hindexes : t.indexes.isEmpty = true
  · rw [if_pos hindexes, strokesOfPlain] at hσ
    cases hwidth : t.edges.findSome? (Scene.widthError? t.vidLen) with
    | some e =>
      simp only [hwidth, List.mem_cons, List.not_mem_nil, or_false] at hσ
      rcases hσ with rfl | rfl
      · exact Stroke.isWithin_note _
      · exact hslot
    | none =>
      simp only [hwidth, List.mem_cons] at hσ
      rcases hσ with rfl | hσ
      · exact Stroke.isWithin_note _
      · exact n.isWithin_strokesOfWrite hP _ _ _ σ hσ
  · rw [if_neg hindexes, strokesOfIndexed] at hσ
    simp only [List.mem_cons, List.mem_append] at hσ
    rcases hσ with rfl | hσ | rfl | hσ
    · exact hslot
    · exact Stroke.isWithin_ofPlanned hP _ σ hσ
    · exact fun _ h => absurd h (Option.some_ne_none _).symm
    · rw [strokesOfPlanned] at hσ
      cases herror : (n.planOf t).error with
      | some e =>
        simp only [herror, List.mem_cons, List.not_mem_nil, or_false] at hσ
        rcases hσ with rfl | rfl | rfl
        · exact Stroke.isWithin_note _
        · exact hslot
        · exact hslot
      | none =>
        cases hclaim : n.locks.claim t.ids with
        | error edge =>
          simp only [herror, hclaim, List.mem_cons, List.not_mem_nil, or_false] at hσ
          rcases hσ with rfl | rfl | rfl | rfl
          · exact Stroke.isWithin_note _
          · exact Stroke.isWithin_note _
          · exact hslot
          · exact hslot
        | ok claimed =>
          simp only [herror, hclaim, List.mem_cons] at hσ
          rcases hσ with rfl | rfl | rfl | hσ
          · exact hslot
          · exact Stroke.isWithin_note _
          · exact Stroke.isWithin_note _
          · exact (n.planned t).isWithin_strokesOfWrite hP _ _ _ σ hσ

theorem isWithin_strokesOfAll (n : Node) {ts : List Turn} (hP : ∀ t ∈ ts, P t.slot) :
    ∀ σ ∈ n.strokesOfAll ts, σ.IsWithin P := by
  induction ts generalizing n with
  | nil => simp [strokesOfAll]
  | cons t ts ih =>
    intro σ hσ
    rcases List.mem_append.1 hσ with hσ | hσ
    · exact n.isWithin_strokesOf (hP t (List.mem_cons_self ..)) σ hσ
    · exact ih (n.work t) (fun t ht => hP t (List.mem_cons_of_mem _ ht)) σ hσ

/-- The strokes of a request after its arrival are those of its slots and of none. -/
theorem isWithin_strokesOfParts (n : Node) {r : DeleteRequest}
    (hP : ∀ part ∈ r.parts.keys, P ⟨n.requests.length, part⟩) :
    ∀ σ ∈ n.strokesOfParts r, σ.IsWithin P := by
  intro σ hσ
  rw [strokesOfParts] at hσ
  cases hturns : n.turns r with
  | error e =>
    simp only [hturns] at hσ
    obtain ⟨part, hpart, rfl⟩ := List.mem_map.1 hσ
    exact fun l h => Option.some.inj h ▸ hP part hpart
  | ok ts =>
    simp only [hturns] at hσ
    refine (n.opened r).isWithin_strokesOfAll ?_ σ hσ
    intro t ht
    obtain ⟨hrequest, -, hpart⟩ := mem_turns hturns ht
    rw [Turn.slot, hrequest]
    exact hP _ (List.mem_map_of_mem hpart)

end Node

/-! ### What is left alone besides the slots -/

namespace Session

variable {P : Slot → Prop}

theorem strike_within (s : Session) {σ : Stroke} (hwithin : σ.IsWithin P) :
    (s.strike σ).node.requests.length = s.node.requests.length ∧
      (s.strike σ).asked = s.asked ∧ (s.strike σ).tracked = s.tracked := by
  cases σ with
  | arrive | unhold | drive => exact hwithin.elim
  | refuse slot code => exact ⟨Node.length_requests_report .., rfl, rfl⟩
  | report slot code => exact ⟨Node.length_requests_report .., rfl, rfl⟩
  | _ => exact ⟨rfl, rfl, rfl⟩

/-- The work for slots brings no new requests. -/
theorem strikeAll_within (s : Session) {h : List Stroke} (hwithin : ∀ σ ∈ h, σ.IsWithin P) :
    (s.strikeAll h).node.requests.length = s.node.requests.length ∧
      (s.strikeAll h).asked = s.asked := by
  induction h generalizing s with
  | nil => exact ⟨rfl, rfl⟩
  | cons σ h ih =>
    obtain ⟨hlength, hasked, -⟩ := s.strike_within (hwithin σ (List.mem_cons_self ..))
    obtain ⟨hlength', hasked'⟩ := ih (s.strike σ) fun σ hσ => hwithin σ (List.mem_cons_of_mem _ hσ)
    exact ⟨hlength'.trans hlength, hasked'.trans hasked⟩

theorem quiet_strike_arrive (s : Session) (request : Nat) (r : DeleteRequest) :
    (s.strike (.arrive request r)).node.quiet = (s.node.arrived r).quiet := Node.quiet_emitAll ..

theorem length_requests_process (s : Session) (r : DeleteRequest) :
    (s.node.process r).2.requests.length = s.node.requests.length + 1 := by
  have hprocess := congrArg (·.node.requests.length) (strikeAll_strokesOfRequest s r)
  refine hprocess.symm.trans ?_
  rw [Node.strokesOfRequest, strikeAll_append, strikeAll_strokesOfArrival]
  refine (strikeAll_within _ (P := fun _ => True)
    (s.node.isWithin_strokesOfParts fun _ _ => trivial)).1.trans ?_
  refine (congrArg (·.requests.length) (s.node.quiet_opened r)).trans ?_
  exact s.node.length_requests_arrived r

end Session

end EdgeDeletion
