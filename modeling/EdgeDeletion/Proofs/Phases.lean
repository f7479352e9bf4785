/-
The phases of a partition of a request.

A slot passes through phases, stroke by stroke.  It is asked for when its request
arrives.  In a space without indexes it is refused, or its write is submitted at once.
In a space with indexes it is counted as in flight first; what it is granted it gives up
when the store is done with its write, and only then it reports.

* `Phase.Next` — one stroke in the life of a slot; `Phase.Leads` — its life so far;
* `leads_of_within` — a slot stays where it is while others are worked for;
* `leads_strokesOf` — the life of a slot in its own turn.
-/
import EdgeDeletion.Proofs.Slots

namespace EdgeDeletion

/-- How far a slot has come. -/
inductive Phase where
  /-- Nobody has asked for the slot. -/
  | absent
  | asked
  /-- The slot is counted as in flight, and its plan is made. -/
  | planning
  /-- The slot has reported a failure and is still counted. -/
  | refused
  | granted (edges : List EdgeId)
  /-- The write was submitted and not yet applied. -/
  | waiting (w : Write Submitter)
  /-- The store is done with the write, which still keeps something or nothing. -/
  | applied (hold : Option Hold)
  /-- The edges were given up and the slot is still counted. -/
  | released
  | reported
  /-- The write got lost and still keeps edges or nothing. -/
  | lost (edges : Option (List EdgeId))
  /-- The write got lost, its edges were given up and the slot is still counted. -/
  | lapsed

namespace Phase

/-- Whether a slot is counted as in flight. -/
def isCounted : Phase → Bool
  | .planning | .refused | .granted _ | .released | .lapsed => true
  | .waiting w => w.token.hold?.isSome
  | .applied hold => hold.isSome
  | .lost edges => edges.isSome
  | .absent | .asked | .reported => false

/-- Whether a slot has reported. -/
def hasReported : Phase → Bool
  | .refused | .reported => true
  | _ => false

/-- Whether a slot has submitted its write or will not do so any more. -/
def isDecided : Phase → Bool
  | .absent | .asked | .planning | .granted _ => false
  | _ => true

/-- One stroke in the life of a slot. -/
inductive Next (l : Slot) : Phase → Stroke → Phase → Prop
  | elsewhere {p : Phase} {σ : Stroke} (h : σ.IsElsewhere l) : Next l p σ p
  | arrive {r : DeleteRequest} (h : l.part ∈ r.parts.keys) :
    Next l .absent (.arrive l.request r) .asked
  | fail (code : ResultCode) : Next l .asked (.refuse l code) .reported
  | track : Next l .asked (.track l) .planning
  | look (e : Event) : Next l .planning (.look l e) .planning
  | refuse (code : ResultCode) : Next l .planning (.refuse l code) .refused
  | untrackRefused : Next l .refused (.untrack l) .reported
  | claim (edges : List EdgeId) : Next l .planning (.claim l edges) (.granted edges)
  | losePlain : Next l .asked (.lose l) (.lost none)
  | lose {edges : List EdgeId} : Next l (.granted edges) (.lose l) (.lost (some edges))
  | releaseLost {edges : List EdgeId} : Next l (.lost (some edges)) (.release l edges) .lapsed
  | untrackLost : Next l .lapsed (.untrack l) (.lost none)
  | submitPlain {w : Write Submitter} (hslot : w.token.slot? = some l)
      (hhold : w.token.hold? = none) : Next l .asked (.submit w) (.waiting w)
  | submit {w : Write Submitter} {hold : Hold} (hslot : w.token.slot? = some l)
      (hhold : w.token.hold? = some hold) : Next l (.granted hold.claimed) (.submit w) (.waiting w)
  | apply {w : Write Submitter} (hslot : w.token.slot? = some l) :
    Next l (.waiting w) (.apply w) (.applied w.token.hold?)
  | release {hold : Hold} : Next l (.applied (some hold)) (.release l hold.claimed) .released
  | untrack : Next l .released (.untrack l) (.applied none)
  | report (code : ResultCode) : Next l (.applied none) (.report l code) .reported

/-- Strokes in the life of a slot, those elsewhere included. -/
inductive Leads (l : Slot) : Phase → List Stroke → Phase → Prop
  | nil (p : Phase) : Leads l p [] p
  | cons {p q r : Phase} {σ : Stroke} {h : List Stroke} (hnext : Next l p σ q)
      (hleads : Leads l q h r) : Leads l p (σ :: h) r

variable {l : Slot} {p q r : Phase} {σ : Stroke} {h h' : List Stroke}

theorem Next.leads (hnext : Next l p σ q) : Leads l p [σ] q := .cons hnext (.nil q)

theorem leads_append_iff : Leads l p (h ++ h') r ↔ ∃ q, Leads l p h q ∧ Leads l q h' r := by
  constructor
  · intro hleads
    induction h generalizing p with
    | nil => exact ⟨p, .nil p, hleads⟩
    | cons σ h ih =>
      obtain _ | ⟨hnext, hleads⟩ := hleads
      obtain ⟨q, hq, hr⟩ := ih hleads
      exact ⟨q, .cons hnext hq, hr⟩
  · rintro ⟨q, hq, hr⟩
    induction hq with
    | nil => exact hr
    | cons hnext _ ih => exact .cons hnext (ih hr)

theorem Leads.append (hleads : Leads l p h q) (hleads' : Leads l q h' r) :
    Leads l p (h ++ h') r := leads_append_iff.2 ⟨q, hleads, hleads'⟩

end Phase

/-! ### Turns -/

namespace Phase

variable {l : Slot}

/-- A slot stays where it is while others are worked for. -/
theorem leads_of_within {h : List Stroke} (hwithin : ∀ σ ∈ h, σ.IsWithin (· ≠ l)) (p : Phase) :
    Leads l p h p := by
  induction h with
  | nil => exact .nil p
  | cons σ h ih =>
    exact .cons (.elsewhere (hwithin σ (List.mem_cons_self ..)).isElsewhere)
      (ih fun σ hσ => hwithin σ (List.mem_cons_of_mem _ hσ))

theorem leads_notes (es : List Event) (p : Phase) : Leads l p (es.map Stroke.note) p :=
  leads_of_within (Stroke.isWithin_notes es) p

theorem Leads.note {p q : Phase} {h : List Stroke} (hleads : Leads l p h q) (e : Event) :
    Leads l p (.note e :: h) q := .cons (.elsewhere (Stroke.isWithin_note e).isElsewhere) hleads

/-- What a write keeps is given up when the store is done with it. -/
theorem leads_ofRelease_applied (hold : Option Hold) :
    Leads l (.applied hold) (Stroke.ofRelease l hold) (.applied none) := by
  cases hold with
  | none => exact .nil _
  | some hold => exact .cons .release (.cons .untrack (.nil _))

/-- So is what a write keeps that gets lost. -/
theorem leads_ofRelease_lost (hold : Option Hold) :
    Leads l (.lost (hold.map (·.claimed))) (Stroke.ofRelease l hold) (.lost none) := by
  cases hold with
  | none => exact .nil _
  | some hold => exact .cons .releaseLost (.cons .untrackLost (.nil _))

theorem leads_ofCompletion {c : Completion Submitter} (hslot : c.token.slot? = some l) :
    Leads l (.applied c.token.hold?) (Stroke.ofCompletion c) .reported := by
  obtain ⟨token, result, rejected⟩ := c
  cases token with
  | outside name => simp [Submitter.slot?] at hslot
  | partition request part edges hold =>
    obtain rfl : (⟨request, part⟩ : Slot) = l := Option.some.inj hslot
    have hrejected := leads_of_within (l := ⟨request, part⟩)
      (h := rejected.toList.map fun cause => Stroke.note (.log (.batchRejected cause)))
      (by simp [Stroke.isWithin_note]) (.applied hold)
    have hnotes := leads_notes (l := ⟨request, part⟩) (Node.notesOf part edges hold result)
      (.applied none)
    exact hrejected.append (((leads_ofRelease_applied hold).append hnotes).append
      (Next.report _).leads)

/-- The store is done with the write of a slot, which then reports. -/
theorem leads_apply {w : Write Submitter} (hslot : w.token.slot? = some l)
    (s : Store Submitter) :
    Leads l (.waiting w) (.apply w :: Stroke.ofCompletion (s.apply w).2) .reported := by
  have htoken := s.apply_token w
  refine .cons (.apply hslot) ?_
  rw [← htoken]
  exact leads_ofCompletion (by rwa [htoken])

/-- The phase of a slot that may submit its write. -/
def ready : Option Hold → Phase
  | none => .asked
  | some hold => .granted hold.claimed

theorem next_submit {w : Write Submitter} (hslot : w.token.slot? = some l) :
    Next l (ready w.token.hold?) (.submit w) (.waiting w) := by
  cases hhold : w.token.hold? with
  | none => exact .submitPlain hslot hhold
  | some hold => exact .submit hslot hhold

theorem next_lose (hold : Option Hold) :
    Next l (ready hold) (.lose l) (.lost (hold.map (·.claimed))) := by
  cases hold with
  | none => exact .losePlain
  | some hold => exact .lose

end Phase

namespace Node

open Phase

/-- The phase of a slot at the end of a turn in which it may submit its write. -/
def resting (n : Node) (w : Write Submitter) : Phase :=
  if n.losesNext then .lost none else if n.store.held.isSome then .waiting w else .reported

theorem leads_strokesOfWrite (n : Node) (t : Turn) (change : Change) (edges : Nat)
    (hold : Option Hold) :
    Leads t.slot (ready hold) (n.strokesOfWrite t change edges hold)
      (n.resting (t.write change edges hold)) := by
  rw [strokesOfWrite, resting]
  by_cases hlost : n.losesNext = true
  · rw [if_pos hlost, if_pos hlost]
    exact .cons (next_lose hold) (leads_ofRelease_lost hold)
  · rw [if_neg hlost, if_neg hlost, Stroke.ofSubmit]
    have hslot : (t.write change edges hold).token.slot? = some t.slot := rfl
    refine .cons (next_submit hslot) ?_
    by_cases hheld : n.store.held.isSome = true
    · rw [if_pos hheld, if_pos hheld]
      exact .nil _
    · rw [if_neg hheld, if_neg hheld]
      have happly := leads_apply hslot n.store.counted
      have hrest : Leads t.slot .reported
        (Stroke.ofWrites (n.store.counted.apply (t.write change edges hold)).1 []) .reported :=
        .nil _
      exact happly.append hrest

/-- The phase of the slot of a turn when the turn is over. -/
def after (n : Node) (t : Turn) : Phase :=
  match n.verdict t with
  | .refused _ => .reported
  | .write change edges hold => n.resting (t.write change edges hold)

theorem leads_ofPlanned (l : Slot) (es : List Event) :
    Leads l .planning (es.map (Stroke.ofPlanned l)) .planning := by
  induction es with
  | nil => exact .nil _
  | cons e es ih =>
    have hnext : Next l .planning (Stroke.ofPlanned l e) .planning := by
      cases e with
      | call c =>
        cases c with
        | indexState => exact .look _
        | _ => exact .elsewhere (Stroke.isWithin_note _).isElsewhere
      | _ => exact .elsewhere (Stroke.isWithin_note _).isElsewhere
    exact .cons hnext ih

/-- The life of a slot in its own turn. -/
theorem leads_strokesOf (n : Node) (t : Turn) :
    Leads t.slot .asked (n.strokesOf t) (n.after t) := by
  rw [strokesOf, after, verdict]
  by_cases hindexes : t.indexes.isEmpty = true
  · rw [if_pos hindexes, if_pos hindexes, strokesOfPlain]
    cases t.edges.findSome? (Scene.widthError? t.vidLen) with
    | some e => exact (Next.fail _).leads.note _
    | none =>
      simp only [List.length_map]
      exact (n.leads_strokesOfWrite t _ _ none).note _
  · rw [if_neg hindexes, if_neg hindexes, strokesOfIndexed]
    have hspend : ∀ store sequencer, (Stroke.spend store sequencer).IsElsewhere t.slot :=
      fun _ _ => (Option.some_ne_none _).symm
    refine .cons .track ((leads_ofPlanned t.slot _).append (.cons (.elsewhere (hspend _ _)) ?_))
    rw [strokesOfPlanned]
    cases (n.planOf t).error with
    | some e => exact (Leads.cons (.refuse _) (.cons .untrackRefused (.nil _))).note _
    | none =>
      cases n.locks.claim t.ids with
      | error edge =>
        exact ((Leads.cons (.refuse _) (.cons .untrackRefused (.nil _))).note _).note _
      | ok claimed =>
        obtain ⟨claimed, locks⟩ := claimed
        have hwrite := (n.planned t).leads_strokesOfWrite t (.batch (Batch.encode (n.opsOf t).1))
          ((n.planOf t).steps.countP Step.isRecord)
          (some ⟨claimed, (n.planOf t).steps.countP Step.isEntry⟩)
        rw [resting, n.planned_losesNext t, n.planned_held t] at hwrite
        exact .cons (.claim claimed) ((hwrite.note _).note _)

end Node

end EdgeDeletion
