/-
A turn on a node that holds writes back, next to the same turn on one that does not.

The second node stores what the first one will have stored once its writes were applied,
up to the numbers of some lines of the log.  Unless the lock table of the first node
refuses it, a turn ends in the same way on both (`verdict_match`): it is refused with
the same failure, or it submits writes that come to the same up to those numbers.
-/
import EdgeDeletion.Proofs.Isolation

namespace EdgeDeletion

/-- The turn as one of another request. -/
def Turn.renumbered (t : Turn) (request : Nat) : Turn := { t with request := request }

namespace Node

variable {n m : Node} {t : Turn}

/-- Whether a turn is refused by the lock table. -/
def conflicts (n : Node) (t : Turn) : Bool :=
  match n.verdict t with
  | .refused (.conflict _) => true
  | _ => false

/-- Away from the log, what the second node has stored is what the first one will have stored. -/
structure Mirrors (n m : Node) : Prop where
  setUp : n.SetUpAs m
  unheld : m.store.held = none
  unlocked : ∀ id, m.locks.isLocked id = false
  places : n.store.SamePlaces m.store
  agree : ∀ place k, k.head? = some Key.edgeTag →
    (n.store.landed.stored place).get? k = (m.store.stored place).get? k

theorem Mirrors.isScene (h : n.Mirrors m) (ht : n.IsTurn t) (hindexes : t.indexes.isEmpty = false)
    (request : Nat) :
    n.IsScene (n.scene t) ∧ (m.scene (t.renumbered request)).still = (n.scene t).still := by
  refine ⟨⟨rfl, rfl, ht.vidLen, ht.indexes, hindexes⟩, ?_⟩
  rw [scene, h.setUp.catalog, h.setUp.markers]
  rfl

/-- Below the prefix of an edge that nobody has claimed both nodes have stored the same. -/
theorem Mirrors.view (h : n.Mirrors m) (hn : n.Isolated) (ht : n.IsTurn t)
    (hindexes : t.indexes.isEmpty = false) {e : Edge} (he : e.hasWidth t.vidLen = true)
    (hfree : n.locks.isLocked ⟨t.place, e⟩ = false) {k : Bytes}
    (hk : Key.edgePrefix t.vidLen t.place.part e <+: k) :
    (n.store.stored t.place).get? k = (m.store.stored t.place).get? k :=
  (hn.unclaimed _ (h.isScene ht hindexes t.request).1 e he hfree k hk).trans
    (h.agree t.place k (Key.head?_of_edgePrefix hk))

/-- An edge makes a plan fail on both nodes or on none. -/
theorem Mirrors.edgeError (h : n.Mirrors m) (hn : n.Isolated) (ht : n.IsTurn t)
    (hindexes : t.indexes.isEmpty = false) (request : Nat) (e : Edge) :
    (n.scene t).edgeError (n.store.contents t.place) e
      = (m.scene (t.renumbered request)).edgeError (m.store.contents t.place) e := by
  obtain ⟨hscene, hstill⟩ := h.isScene ht hindexes request
  rw [← (m.scene _).edgeError_still, hstill, Scene.edgeError_still]
  by_cases hwidth : e.hasWidth t.vidLen = true
  · cases hlocked : n.locks.isLocked ⟨t.place, e⟩ with
    | false =>
      exact Scene.edgeError_of_agree h.places fun k hk => h.view hn ht hindexes hwidth hlocked hk
    | true =>
      -- the edge makes no plan fail here, and none where the writes held back were applied
      obtain ⟨-, hnow, hthen⟩ := hn.claimed _ hscene e hlocked
      refine hnow.trans (hthen.symm.trans ?_)
      refine Scene.edgeError_of_agree (fun place => ?_) fun k hk =>
        h.agree t.place k (Key.head?_of_edgePrefix hk)
      exact (n.store.samePlaces_landed place).trans (h.places place)
  · have hnarrow : Scene.widthError? (n.scene t).vidLen e ≠ none := by
      show Scene.widthError? t.vidLen e ≠ none
      simp [Scene.widthError?, hwidth]
    rw [Scene.edgeError_of_width hnarrow, Scene.edgeError_of_width hnarrow]

/-- Edges that nobody has claimed are deleted in the same steps. -/
theorem Mirrors.stepsOf (h : n.Mirrors m) (hn : n.Isolated) (ht : n.IsTurn t)
    (hindexes : t.indexes.isEmpty = false) (request : Nat)
    (hwidth : ∀ e ∈ t.edges, e.hasWidth t.vidLen = true)
    (hfree : ∀ e ∈ t.edges, n.locks.isLocked ⟨t.place, e⟩ = false) :
    m.stepsOf (t.renumbered request) (m.store.stored t.place)
      = n.stepsOf t (n.store.stored t.place) := by
  obtain ⟨-, hstill⟩ := h.isScene ht hindexes request
  refine List.flatMap_congr fun e he => ?_
  have hview := fun k hk => (h.view hn ht hindexes (hwidth e he) (hfree e he) (k := k) hk).symm
  rw [← (m.scene _).edgeSteps_still, hstill, Scene.edgeSteps_still]
  exact Scene.edgeSteps_congr hview

theorem verdict_of_claim (hindexes : t.indexes.isEmpty = false) (herror : (n.planOf t).error = none)
    {p : List EdgeId × LockTable EdgeId} (hclaim : n.locks.claim t.ids = .ok p) :
    ∃ edges hold, n.verdict t = .write (.batch (Batch.encode (n.opsOf t).1)) edges hold := by
  rw [verdict, hindexes, herror, hclaim]
  exact ⟨_, _, rfl⟩

/-- Both nodes refuse a turn with the same failure, or they submit writes for it that are readable
on both or on none and remove and defer the same. -/
def SameVerdict (n m : Node) (t t' : Turn) : Prop :=
  (∃ e, n.verdict t = .refused e ∧ m.verdict t' = .refused e) ∨
    ∃ change edges hold change' edges' hold', n.verdict t = .write change edges hold ∧
      m.verdict t' = .write change' edges' hold' ∧
      m.removedIn t' = n.removedIn t ∧ m.deferredIn t' = n.deferredIn t ∧
      ((∃ ops, Store.opsOf change = .ok ops) ↔ ∃ ops, Store.opsOf change' = .ok ops)

/-- In a space without indexes nothing that is stored has to do with it. -/
theorem sameVerdict_of_plain (n m : Node) (hindexes : t.indexes.isEmpty = true) (request : Nat) :
    n.SameVerdict m t (t.renumbered request) := by
  have hindexes' : (t.renumbered request).indexes.isEmpty = true := hindexes
  have hsame : m.verdict (t.renumbered request) = n.verdict t := by
    rw [verdict, verdict, if_pos hindexes, if_pos hindexes']
    rfl
  have hremoved : m.removedIn (t.renumbered request) = n.removedIn t := by
    rw [removedIn, removedIn, if_pos hindexes, if_pos hindexes']
    rfl
  have hdeferred : m.deferredIn (t.renumbered request) = n.deferredIn t := by
    rw [deferredIn, deferredIn, if_pos hindexes, if_pos hindexes']
  cases hverdict : n.verdict t with
  | refused e => exact .inl ⟨e, hverdict, hsame.trans hverdict⟩
  | write change edges hold =>
    exact .inr ⟨change, edges, hold, change, edges, hold, hverdict, hsame.trans hverdict, hremoved,
      hdeferred, Iff.rfl⟩

/-- Where a plan fails on none of the nodes and the first one admits the claim, so does the second
one, on which nobody has claimed anything. -/
theorem Mirrors.sameVerdict_of_claim (h : n.Mirrors m) (hn : n.Isolated) (ht : n.IsTurn t)
    (hindexes : t.indexes.isEmpty = false) {request : Nat}
    (herror : (n.planOf t).error = none)
    (herror' : (m.planOf (t.renumbered request)).error = none)
    {p : List EdgeId × LockTable EdgeId} (hclaim : n.locks.claim t.ids = .ok p) :
    n.SameVerdict m t (t.renumbered request) := by
  have hindexes' : (t.renumbered request).indexes.isEmpty = false := hindexes
  obtain ⟨claimed, locks⟩ := p
  obtain ⟨rfl, -, hfree⟩ := LockTable.claim_of_ok hclaim
  obtain ⟨hplan, hplanned⟩ := Scene.plan_stored herror
  have hsteps := h.stepsOf hn ht hindexes request (fun e he => (hplan e he).1)
    fun e he => hfree _ (LockTable.mem_distinct.2 (List.mem_map.2 ⟨e, he, rfl⟩))
  obtain ⟨p', hclaim'⟩ : ∃ p', m.locks.claim (t.renumbered request).ids = .ok p' :=
    (LockTable.claim_eq_ok_iff ..).2 fun id _ => h.unlocked id
  obtain ⟨edges, hold, hverdict⟩ := verdict_of_claim hindexes herror hclaim
  obtain ⟨edges', hold', hverdict'⟩ := verdict_of_claim hindexes' herror' hclaim'
  refine .inr ⟨_, edges, hold, _, edges', hold', hverdict, hverdict', ?_, ?_, ?_⟩
  · rw [removedIn, removedIn, hindexes, hindexes']
    exact congrArg Step.removedKeys hsteps
  · rw [deferredIn, deferredIn, hindexes, hindexes']
    exact congrArg Step.deferredKeys hsteps
  · -- the payloads differ in the numbers alone
    have hops := hplanned.trans hsteps.symm
    have hops' := (Scene.plan_stored herror').2
    rw [opsOf, opsOf, planOf, planOf, hops, hops']
    exact opsOf_toOps_iff ..

/-- Both nodes come to the same verdict, unless the lock table refuses the turn on the first. -/
theorem verdict_match (hf : n.Faultless) (hf' : m.Faultless) (h : n.Mirrors m) (hn : n.Isolated)
    (ht : n.IsTurn t) (hadmitted : n.conflicts t = false) (request : Nat) :
    n.SameVerdict m t (t.renumbered request) := by
  by_cases hindexes : t.indexes.isEmpty = true
  · exact sameVerdict_of_plain n m hindexes request
  · have hindexes : t.indexes.isEmpty = false := by simpa using hindexes
    have hindexes' : (t.renumbered request).indexes.isEmpty = false := hindexes
    have herror' : (m.planOf (t.renumbered request)).error = (n.planOf t).error := by
      rw [planOf_error hf, planOf_error hf']
      exact congrArg t.edges.findSome? (funext fun e => (h.edgeError hn ht hindexes request e).symm)
    cases herror : (n.planOf t).error with
    | some e =>
      refine .inl ⟨e, ?_, ?_⟩
      · simp [verdict, hindexes, herror]
      · simp [verdict, hindexes', herror', herror]
    | none =>
      cases hclaim : n.locks.claim t.ids with
      | error edge => simp [conflicts, verdict, hindexes, herror, hclaim] at hadmitted
      | ok p =>
        exact h.sameVerdict_of_claim hn ht hindexes herror (herror'.trans herror) hclaim

end Node

end EdgeDeletion
