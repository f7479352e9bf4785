/-
Deletes that read no rows.

Where no index is on the types of the edges of a request, and none is on a type that is not a
forward one, neither the stored values nor the markers have to do with what happens:

* `SameKeys.work`, `SameKeys.process` — nodes that are the same but for those end a turn, or
  a request, the same but for those;
* `adds_work`, `adds_process` — what is noted are no rows read and no index states asked for,
  and all changes remove keys below the prefixes of the edges;
* `rows_unread` — both for every catalog that can be reached.
-/
import EdgeDeletion.Proofs.BarePlans
import EdgeDeletion.Proofs.CatalogEdits
import EdgeDeletion.Proofs.Frame
import EdgeDeletion.Proofs.Timeline

namespace EdgeDeletion

/-! ### What is noted -/

/-- Whether an event is a question to a collaborator. -/
def Event.isCall : Event → Bool
  | .call _ => true
  | _ => false

/-- Whether an event is a line that tells an edge to be held. -/
def Event.isConflict : Event → Bool
  | .log (.lockConflict ..) => true
  | _ => false

/-- An event by which nobody is asked and no edge told to be held. -/
structure Event.IsRemark (e : Event) : Prop where
  noCall : e.isCall = false
  noConflict : e.isConflict = false

/-- An event by which no row is read and no index state asked for.  A change removes only keys
that may go. -/
def Event.Spares (allowed : Place → Bytes → Prop) : Event → Prop
  | .call (.decode ..) | .call (.indexState ..) => False
  | .call (.remove place keys ..) => ∀ k ∈ keys, allowed place k
  | .call (.batch place payload ..) =>
    ∃ keys : List Bytes, payload = Batch.encode (keys.map .remove) ∧ ∀ k ∈ keys, allowed place k
  | _ => True

theorem Event.IsRemark.spares {allowed : Place → Bytes → Prop} {e : Event}
    (h : e.IsRemark) : e.Spares allowed := by
  cases e with
  | call c => exact absurd h.noCall nofun
  | _ => trivial

theorem Event.Spares.mono {allowed allowed' : Place → Bytes → Prop} {e : Event}
    (h : e.Spares allowed) (hsub : ∀ place k, allowed place k → allowed' place k) :
    e.Spares allowed' := by
  cases e with
  | call c =>
    cases c with
    | remove place keys locked inflight => exact fun k hk => hsub place k (h k hk)
    | batch place payload locked inflight =>
      obtain ⟨keys, hpayload, hkeys⟩ := h
      exact ⟨keys, hpayload, fun k hk => hsub place k (hkeys k hk)⟩
    | _ => exact h
  | _ => trivial

theorem Collector.isRemark_of_mem_finish {c : Collector} {now : UInt64} {e : Event}
    (h : e ∈ (c.finish now).2) : e.IsRemark := by
  rw [finish] at h
  split at h
  · exact absurd h List.not_mem_nil
  · rw [List.mem_singleton.1 h]
    exact ⟨rfl, rfl⟩

theorem Collector.isRemark_of_mem_report {c : Collector} {now : UInt64} {part : PartId}
    {code : ResultCode} {e : Event} (h : e ∈ (c.report now part code).2) : e.IsRemark := by
  rw [report] at h
  split at h
  · rw [List.mem_singleton.1 h]
    exact ⟨rfl, rfl⟩
  · rcases List.mem_append.1 h with h | h
    · split at h
      · exact absurd h List.not_mem_nil
      · rw [List.mem_singleton.1 h]
        exact ⟨rfl, rfl⟩
    · exact isRemark_of_mem_finish h

namespace Node

variable {n m l : Node} {P Q : Event → Prop}

/-- The trace has got longer by events of a kind. -/
def Adds (P : Event → Prop) (n m : Node) : Prop :=
  ∃ events, m.trace = n.trace ++ events ∧ ∀ e ∈ events, P e

namespace Adds

theorem of_eq (h : m.trace = n.trace) : Adds P n m :=
  ⟨[], by rw [h, List.append_nil], fun _ he => absurd he List.not_mem_nil⟩

theorem trans (h : Adds P n m) (h' : Adds P m l) : Adds P n l := by
  obtain ⟨events, hm, hevents⟩ := h
  obtain ⟨events', hl, hevents'⟩ := h'
  refine ⟨events ++ events', by rw [hl, hm, List.append_assoc], fun e he => ?_⟩
  exact (List.mem_append.1 he).elim (hevents e) (hevents' e)

theorem mono (h : Adds P n m) (hsub : ∀ e, P e → Q e) : Adds Q n m := by
  obtain ⟨events, hm, hevents⟩ := h
  exact ⟨events, hm, fun e he => hsub e (hevents e he)⟩

end Adds

theorem adds_emitAll (n : Node) {es : List Event} (h : ∀ e ∈ es, P e) :
    Adds P n (n.emitAll es) := by
  refine ⟨es, ?_, h⟩
  clear h
  induction es generalizing n with
  | nil => exact (List.append_nil _).symm
  | cons e es ih =>
    have hfirst : (n.emit e).trace = n.trace ++ [e] := rfl
    show ((n.emit e).emitAll es).trace = _
    rw [ih, hfirst, List.append_assoc]
    rfl

theorem adds_emit (n : Node) {e : Event} (h : P e) : Adds P n (n.emit e) :=
  ⟨[e], rfl, fun _ he => List.mem_singleton.1 he ▸ h⟩

/-! ### Reports and completions -/

theorem adds_report (n : Node) (request : Nat) (part : PartId) (code : ResultCode) :
    Adds Event.IsRemark n (n.report request part code) := by
  rw [report]
  cases n.requests[request]? with
  | none => exact .of_eq rfl
  | some c => exact adds_emitAll { n with requests := _ } fun _ => Collector.isRemark_of_mem_report

theorem adds_releaseHold (n : Node) (hold : Option Hold) : Adds P n (n.releaseHold hold) := by
  cases hold <;> exact .of_eq rfl

theorem isRemark_of_mem_notesOf {part : PartId} {edges : Nat} {hold : Option Hold}
    {result : Except StoreCode Unit} {e : Event}
    (h : e ∈ Node.notesOf part edges hold result) : e.IsRemark := by
  cases result with
  | ok u =>
    rcases List.mem_cons.1 h with rfl | h
    · exact ⟨rfl, rfl⟩
    · obtain ⟨held, -, rfl⟩ := List.mem_map.1 h
      exact ⟨rfl, rfl⟩
  | error code =>
    rw [List.mem_singleton.1 h]
    exact ⟨rfl, rfl⟩

theorem adds_complete (n : Node) (c : Completion Submitter) :
    Adds Event.IsRemark n (n.complete c) := by
  obtain ⟨token, result, rejected⟩ := c
  have hrejected : ∀ e ∈ rejected.toList.map fun cause => Event.log (.batchRejected cause),
      e.IsRemark := fun e he => by
    obtain ⟨cause, -, rfl⟩ := List.mem_map.1 he
    exact ⟨rfl, rfl⟩
  cases token with
  | outside name =>
    have hsplit : n.complete ⟨.outside name, result, rejected⟩
        = (n.emitAll (rejected.toList.map fun cause => .log (.batchRejected cause))).emit
            (.written name result) := by
      cases rejected <;> rfl
    rw [hsplit]
    exact (n.adds_emitAll hrejected).trans (adds_emit _ ⟨rfl, rfl⟩)
  | partition request part edges hold =>
    rw [complete_partition]
    exact (n.adds_emitAll hrejected).trans <| (adds_releaseHold _ hold).trans <|
      (adds_emitAll _ fun _ => isRemark_of_mem_notesOf).trans (adds_report ..)

theorem adds_completeAll (n : Node) (cs : List (Completion Submitter)) :
    Adds Event.IsRemark n (n.completeAll cs) := by
  induction cs generalizing n with
  | nil => exact .of_eq rfl
  | cons c cs ih => exact (n.adds_complete c).trans (ih (n.complete c))

theorem adds_submitPart (n : Node) (place : Place) (change : Change) (request edges : Nat)
    (hold : Option Hold) :
    Adds Event.IsRemark n (n.submitPart place change request edges hold) := by
  rw [submitPart]
  by_cases hlost : n.losesNext = true
  · rw [if_pos hlost]
    exact adds_releaseHold { n with losesNext := false } hold
  · rw [if_neg hlost]
    exact adds_completeAll { n with store := _ } _

/-- A partition that was counted as in flight and is refused. -/
theorem adds_refusal (n : Node) (request : Nat) (part : PartId) (code : ResultCode) :
    Adds Event.IsRemark n (n.report request part code).untrack :=
  (n.adds_report request part code).trans (.of_eq rfl)

theorem adds_resume (n : Node) : Adds Event.IsRemark n n.resume.2 := by
  rw [resume_snd]
  exact adds_completeAll { n with store := n.store.resume.1 } n.store.resume.2

theorem adds_failAll (n : Node) (request : Nat) (parts : List PartId) (code : ResultCode) :
    Adds Event.IsRemark n (n.failAll request parts code) := by
  induction parts generalizing n with
  | nil => exact .of_eq rfl
  | cons part parts ih => exact (n.adds_report ..).trans (ih (n.report request part code))

end Node

/-! ### Turns without indexes -/

/-- No index is on the type of an edge of the turn. -/
def Turn.IsBare (t : Turn) : Prop := ∀ i ∈ t.indexes, ∀ e ∈ t.edges, i.edgeType ≠ e.type

/-- Whether a key of a partition is below the prefix of an edge of the turn. -/
def Turn.Owns (t : Turn) (place : Place) (k : Bytes) : Prop :=
  place = t.place ∧ ∃ e ∈ t.edges, Key.edgePrefix t.vidLen t.place.part e <+: k

namespace Node

variable {n m : Node} {t : Turn}

theorem adds_deletePlain (n : Node) (t : Turn) :
    Adds (Event.Spares t.Owns) n (n.deletePlain t.request t.place t.vidLen t.edges) := by
  rw [deletePlain]
  cases t.edges.findSome? (Scene.widthError? t.vidLen) with
  | some e =>
    exact (n.adds_emit trivial).trans ((adds_report ..).mono fun _ => Event.IsRemark.spares)
  | none =>
    refine (n.adds_emit (e := .call (.remove ..)) fun k hk => ?_).trans
      ((adds_submitPart ..).mono fun _ => Event.IsRemark.spares)
    obtain ⟨e, he, rfl⟩ := List.mem_map.1 hk
    exact ⟨rfl, e, he, Key.edgePrefix_prefix_record ..⟩

theorem adds_deleteIndexed (n : Node) (h : t.IsBare) :
    Adds (Event.Spares t.Owns) n
      (n.deleteIndexed t.request t.place t.vidLen t.indexes t.edges) := by
  have hbare : (n.planOf t).Bare ((n.scene t).Below t.edges) :=
    Scene.bare_plan (s := n.scene t) h n.store
  obtain ⟨a, ha⟩ : ∃ a, a = { n with
      store := ((n.scene t).plan n.store t.edges).1
      sequencer := (n.opsOf t).2 }.track.emitAll (n.planOf t).trace := ⟨_, rfl⟩
  have hplan : Adds (Event.Spares t.Owns) n a := by
    rw [ha]
    refine adds_emitAll (track { n with store := _, sequencer := _ }) fun e he => ?_
    obtain ⟨place, start, rfl⟩ := hbare.trace e he
    trivial
  rw [deleteIndexed_of_planned n t ha]
  cases (n.planOf t).error with
  | some e =>
    exact hplan.trans <| (a.adds_emit trivial).trans <|
      (adds_refusal ..).mono fun _ => Event.IsRemark.spares
  | none =>
    rw [claim]
    cases a.locks.claim t.ids with
    | error edge =>
      exact hplan.trans <| (a.adds_emit trivial).trans <| (adds_emit _ trivial).trans <|
        (adds_refusal ..).mono fun _ => Event.IsRemark.spares
    | ok claimed =>
      obtain ⟨keys, hops, hkeys⟩ := hbare.toOps t.place.part n.sequencer
      refine hplan.trans <| (adds_emit { a with locks := _ } (e := .signal _) trivial).trans <|
        (adds_emit _ (e := .call (.batch ..)) ⟨keys, ?_, fun k hk => ?_⟩).trans <|
        (adds_submitPart ..).mono fun _ => Event.IsRemark.spares
      · rw [opsOf, hops]
      · exact ⟨rfl, hkeys k hk⟩

/-- In such a turn no row is read and no index state asked for, and all that goes are keys below
the prefixes of its edges. -/
theorem adds_work (n : Node) (h : t.IsBare) : Adds (Event.Spares t.Owns) n (n.work t) := by
  rw [work]
  by_cases hindexes : t.indexes.isEmpty = true
  · rw [if_pos hindexes]
    exact n.adds_deletePlain t
  · rw [if_neg hindexes]
    exact n.adds_deleteIndexed h

theorem adds_workAll (n : Node) {ts : List Turn} (h : ∀ t ∈ ts, t.IsBare) :
    Adds (Event.Spares fun place k => ∃ t ∈ ts, t.Owns place k) n (n.workAll ts) := by
  have hall : ∀ ts' : List Turn, (∀ t ∈ ts', t ∈ ts) → ∀ n : Node,
      Adds (Event.Spares fun place k => ∃ t ∈ ts, t.Owns place k) n (n.workAll ts') := by
    intro ts' hsub
    induction ts' with
    | nil => exact fun n => .of_eq rfl
    | cons t ts' ih =>
      intro n
      have ht : t ∈ ts := hsub t (List.mem_cons_self ..)
      have hfirst : Adds (Event.Spares fun place k => ∃ t ∈ ts, t.Owns place k) n (n.work t) :=
        (n.adds_work (h t ht)).mono fun e he => he.mono fun place k hk => ⟨t, ht, hk⟩
      exact hfirst.trans (ih (fun t' ht' => hsub t' (List.mem_cons_of_mem _ ht')) (n.work t))
  exact hall ts (fun _ ht => ht) n

end Node

/-! ### Nodes with the same keys -/

namespace Node

/-- The nodes are the same but for the values that are stored and for the markers. -/
structure SameKeys (n m : Node) : Prop where
  store : n.store.SameKeys m.store
  rest : m = { n with store := m.store, markers := m.markers }

/-- The node with another store and other markers. -/
def restocked (s : Store Submitter) (k : IndexMarkers) (n : Node) : Node :=
  { n with store := s, markers := k }

theorem aside_restocked (s : Store Submitter) (k : IndexMarkers) : Aside (restocked s k) :=
  ⟨fun _ _ => rfl, fun _ _ => rfl, fun _ => rfl, fun _ => rfl⟩

theorem restocked_complete (s : Store Submitter) (k : IndexMarkers) (n : Node)
    (c : Completion Submitter) : (n.complete c).restocked s k = (n.restocked s k).complete c :=
  (aside_restocked s k).complete (fun _ hold => by cases hold <;> rfl) n c

namespace SameKeys

variable {n m : Node} {t : Turn}

theorem exists_restocked (h : n.SameKeys m) :
    ∃ s k, n.store.SameKeys s ∧ m = n.restocked s k := ⟨m.store, m.markers, h.store, h.rest⟩

/-- A change that has nothing to do with the store and the markers can be made to both nodes. -/
theorem map (h : n.SameKeys m) {f : Node → Node} (hstore : (f n).store = n.store)
    (hcommutes : ∀ s k, (f n).restocked s k = f (n.restocked s k)) : (f n).SameKeys (f m) := by
  obtain ⟨s, k, hs, rfl⟩ := h.exists_restocked
  rw [← hcommutes]
  exact ⟨hstore ▸ hs, rfl⟩

theorem emit (h : n.SameKeys m) (e : Event) : (n.emit e).SameKeys (m.emit e) :=
  h.map (f := fun n => n.emit e) rfl fun _ _ => rfl

theorem emitAll (h : n.SameKeys m) (es : List Event) : (n.emitAll es).SameKeys (m.emitAll es) := by
  induction es generalizing n m with
  | nil => exact h
  | cons e es ih => exact ih (h.emit e)

theorem report (h : n.SameKeys m) (request : Nat) (part : PartId) (code : ResultCode) :
    (n.report request part code).SameKeys (m.report request part code) :=
  h.map (f := fun n => n.report request part code) (n.store_report ..)
    fun s k => (aside_restocked s k).report ..

theorem completeAll (h : n.SameKeys m) (cs : List (Completion Submitter)) :
    (n.completeAll cs).SameKeys (m.completeAll cs) := by
  induction cs generalizing n m with
  | nil => exact h
  | cons c cs ih =>
    exact ih (h.map (f := fun n => n.complete c) (n.store_complete c)
      fun s k => restocked_complete s k n c)

theorem failAll (h : n.SameKeys m) (request : Nat) (parts : List PartId) (code : ResultCode) :
    (n.failAll request parts code).SameKeys (m.failAll request parts code) := by
  induction parts generalizing n m with
  | nil => exact h
  | cons part parts ih => exact ih (h.report request part code)

/-- A write has the same outcome for both nodes. -/
theorem submitPart (h : n.SameKeys m) (place : Place) (change : Change) (request edges : Nat)
    (hold : Option Hold) :
    (n.submitPart place change request edges hold).SameKeys
      (m.submitPart place change request edges hold) := by
  obtain ⟨s, k, hs, rfl⟩ := h.exists_restocked
  rw [Node.submitPart, Node.submitPart]
  by_cases hlost : n.losesNext = true
  · rw [if_pos hlost, if_pos (show (n.restocked s k).losesNext = true from hlost)]
    cases hold <;> exact ⟨hs, rfl⟩
  · rw [if_neg hlost, if_neg (show ¬(n.restocked s k).losesNext = true from hlost)]
    obtain ⟨w, hw⟩ : ∃ w : Write Submitter,
        w = ⟨place, change, .partition request place.part edges hold⟩ := ⟨_, rfl⟩
    obtain ⟨hsame, hdone⟩ := hs.submit w
    have hstores : SameKeys { n with store := (n.store.submit w).1 }
        { n.restocked s k with store := (s.submit w).1 } := ⟨hsame, rfl⟩
    rw [← hw]
    show SameKeys (Node.completeAll { n with store := (n.store.submit w).1 } (n.store.submit w).2)
      (Node.completeAll { n.restocked s k with store := (s.submit w).1 } (s.submit w).2)
    rw [hdone]
    exact hstores.completeAll _

theorem deletePlain (h : n.SameKeys m) (t : Turn) :
    (n.deletePlain t.request t.place t.vidLen t.edges).SameKeys
      (m.deletePlain t.request t.place t.vidLen t.edges) := by
  obtain ⟨s, k, hs, rfl⟩ := h.exists_restocked
  rw [Node.deletePlain, Node.deletePlain]
  cases t.edges.findSome? (Scene.widthError? t.vidLen) with
  | some e => exact (h.emit (.log (.invalidWidth t.place e))).report ..
  | none => exact (h.emit (.call (.remove ..))).submitPart ..

/-- The plan of a turn without indexes is the same. -/
theorem planOf (h : n.SameKeys m) (ht : t.IsBare) :
    ((n.scene t).plan n.store t.edges).1.SameKeys ((m.scene t).plan m.store t.edges).1 ∧
      m.planOf t = n.planOf t ∧ m.opsOf t = n.opsOf t := by
  obtain ⟨s, k, hs, rfl⟩ := h.exists_restocked
  obtain ⟨hsame, hplan⟩ := Scene.plan_of_sameKeys (s := n.scene t) ht hs k
  have hplanOf : (n.restocked s k).planOf t = n.planOf t := hplan
  refine ⟨hsame, hplanOf, ?_⟩
  rw [opsOf, opsOf, hplanOf]
  rfl

theorem deleteIndexed (h : n.SameKeys m) (ht : t.IsBare) :
    (n.deleteIndexed t.request t.place t.vidLen t.indexes t.edges).SameKeys
      (m.deleteIndexed t.request t.place t.vidLen t.indexes t.edges) := by
  obtain ⟨hstore, hplan, hops⟩ := h.planOf ht
  obtain ⟨a, ha⟩ : ∃ a, a = { n with
      store := ((n.scene t).plan n.store t.edges).1
      sequencer := (n.opsOf t).2 }.track.emitAll (n.planOf t).trace := ⟨_, rfl⟩
  obtain ⟨b, hb⟩ : ∃ b, b = { m with
      store := ((m.scene t).plan m.store t.edges).1
      sequencer := (m.opsOf t).2 }.track.emitAll (m.planOf t).trace := ⟨_, rfl⟩
  have hab : a.SameKeys b := by
    rw [ha, hb, hplan, hops]
    refine SameKeys.emitAll ⟨hstore, ?_⟩ _
    rw [h.rest]
    rfl
  rw [deleteIndexed_of_planned n t ha, deleteIndexed_of_planned m t hb, hplan, hops]
  obtain ⟨s, k, hs, rfl⟩ := hab.exists_restocked
  cases (n.planOf t).error with
  | some e =>
    have hlogged := hab.emit (.log (.batchFailed t.place e))
    exact (hlogged.report ..).map (f := untrack) rfl fun _ _ => rfl
  | none =>
    have hlocks : (a.restocked s k).locks = a.locks := rfl
    simp only [claim, hlocks]
    cases hclaim : a.locks.claim t.ids with
    | error edge =>
      simp only [Except.map]
      have hlogged := (hab.emit (.signal .lockConflict)).emit (.log (.lockConflict t.place.part
        (if a.options.logConflictKeys then some edge else none)))
      exact (hlogged.report ..).map (f := untrack) rfl fun _ _ => rfl
    | ok claimed =>
      simp only [Except.map]
      have hheld : SameKeys { a with locks := claimed.2 }
          { a.restocked s k with locks := claimed.2 } := ⟨hs, rfl⟩
      exact ((hheld.emit (.signal _)).emit (.call (.batch ..))).submitPart ..

/-- A turn without indexes does the same to both nodes. -/
theorem work (h : n.SameKeys m) (ht : t.IsBare) : (n.work t).SameKeys (m.work t) := by
  rw [Node.work, Node.work]
  by_cases hindexes : t.indexes.isEmpty = true
  · rw [if_pos hindexes, if_pos hindexes]
    exact h.deletePlain t
  · rw [if_neg hindexes, if_neg hindexes]
    exact h.deleteIndexed ht

theorem workAll (h : n.SameKeys m) {ts : List Turn} (hts : ∀ t ∈ ts, t.IsBare) :
    (n.workAll ts).SameKeys (m.workAll ts) := by
  induction ts generalizing n m with
  | nil => exact h
  | cons t ts ih =>
    exact ih (h.work (hts t (List.mem_cons_self ..))) fun t' ht' =>
      hts t' (List.mem_cons_of_mem _ ht')

theorem resume (h : n.SameKeys m) : n.resume.2.SameKeys m.resume.2 := by
  obtain ⟨s, k, hs, rfl⟩ := h.exists_restocked
  obtain ⟨hsame, hdone⟩ := hs.resume
  have hstores : SameKeys { n with store := n.store.resume.1 }
      { n.restocked s k with store := s.resume.1 } := ⟨hsame, rfl⟩
  have hother : (n.restocked s k).resume.2
      = { n.restocked s k with store := s.resume.1 }.completeAll s.resume.2 := resume_snd _
  rw [resume_snd, hother, hdone]
  exact hstores.completeAll _

theorem pause (h : n.SameKeys m) : n.pause.SameKeys m.pause := by
  obtain ⟨s, k, hs, rfl⟩ := h.exists_restocked
  refine ⟨?_, rfl⟩
  show n.store.pause.SameKeys s.pause
  rw [hs.rest]
  exact hs.congr rfl

end SameKeys

/-! ### Requests -/

variable {n m : Node} {r : DeleteRequest} {P : Event → Prop}

/-- No index is on the type of an edge of the request. -/
def IsBare (n : Node) (r : DeleteRequest) : Prop :=
  ∀ indexes, (n.indexCatalog.getD n.catalog).edgeIndexes r.space = .ok indexes →
    ∀ p ∈ r.parts.entries, ∀ e ∈ p.2, ∀ i ∈ indexes, i.edgeType ≠ e.type

/-- Whether a key of a partition is below the prefix of an edge of the request. -/
def Owns (n : Node) (r : DeleteRequest) (place : Place) (k : Bytes) : Prop :=
  ∃ vidLen, n.catalog.vidLen r.space = .ok vidLen ∧ place.space = r.space ∧
    ∃ edges, (place.part, edges) ∈ r.parts.entries ∧
      ∃ e ∈ edges, Key.edgePrefix vidLen place.part e <+: k

theorem IsBare.turns (h : n.IsBare r) {ts : List Turn} (hts : n.turns r = .ok ts) :
    ∀ t ∈ ts, t.IsBare := by
  obtain ⟨vidLen, indexes, -, hindexes, rfl⟩ := eq_of_turns hts
  intro t ht i hi e he
  obtain ⟨p, hp, rfl⟩ := List.mem_map.1 ht
  exact h indexes hindexes p hp e he i hi

theorem owns_of_turn {ts : List Turn} (hts : n.turns r = .ok ts) {place : Place} {k : Bytes}
    (h : ∃ t ∈ ts, t.Owns place k) : n.Owns r place k := by
  obtain ⟨vidLen, indexes, hvidLen, -, rfl⟩ := eq_of_turns hts
  obtain ⟨t, ht, rfl, e, he, hpre⟩ := h
  obtain ⟨p, hp, rfl⟩ := List.mem_map.1 ht
  exact ⟨vidLen, hvidLen, rfl, p.2, hp, e, he, hpre⟩

theorem spares_preface {allowed : Place → Bytes → Prop} {e : Event} (h : e ∈ n.preface r) :
    e.Spares allowed := by
  rcases n.of_mem_preface h with rfl | rfl | ⟨error, rfl | rfl⟩ <;> trivial

theorem adds_opened (n : Node) (r : DeleteRequest) (hremark : ∀ e : Event, e.IsRemark → P e)
    (hpreface : ∀ e ∈ n.preface r, P e) : Adds P n (n.opened r) := by
  obtain ⟨a, ha⟩ : ∃ a, a = { n.emit (.signal .call) with
      requests := n.requests ++ [(Collector.start r.parts.size n.now).1] } := ⟨_, rfl⟩
  have harrived : Adds P n a := by
    rw [ha]
    exact n.adds_emit (e := .signal .call) (hremark _ ⟨rfl, rfl⟩)
  have hstart : Adds P a (a.emitAll (Collector.start r.parts.size n.now).2) :=
    a.adds_emitAll fun e he => hremark e (Collector.isRemark_of_mem_finish he)
  rw [opened, ← ha]
  exact (harrived.trans hstart).trans (adds_emitAll _ hpreface)

/-- By a request without indexes no row is read and no index state asked for, and all that goes
are keys below the prefixes of its edges. -/
theorem adds_process (h : n.IsBare r) : Adds (Event.Spares (n.Owns r)) n (n.process r).2 := by
  have hopened : Adds (Event.Spares (n.Owns r)) n (n.opened r) :=
    n.adds_opened r (fun _ => Event.IsRemark.spares) fun _ => spares_preface
  rw [process_eq]
  cases hturns : n.turns r with
  | error e => exact hopened.trans ((adds_failAll ..).mono fun _ => Event.IsRemark.spares)
  | ok ts =>
    exact hopened.trans <| (adds_workAll _ (h.turns hturns)).mono fun e he =>
      he.mono fun place k hk => owns_of_turn hturns hk

theorem adds_processDeferred (h : n.IsBare r) :
    Adds (Event.Spares (n.Owns r)) n (n.processDeferred r).2 := by
  rw [processDeferred]
  by_cases hheld : n.store.held.isSome = true
  · rw [if_pos hheld]
    exact adds_process h
  · rw [if_neg hheld]
    have hpaused : Adds (Event.Spares (n.Owns r)) n n.pause := .of_eq rfl
    have hworked : Adds (Event.Spares (n.Owns r)) n.pause (n.pause.process r).2 :=
      adds_process (n := n.pause) h
    exact (hpaused.trans hworked).trans
      ((adds_resume _).mono fun _ => Event.IsRemark.spares)

namespace SameKeys

theorem opened (h : n.SameKeys m) (r : DeleteRequest) : (n.opened r).SameKeys (m.opened r) := by
  obtain ⟨s, k, hs, rfl⟩ := h.exists_restocked
  have harrived : SameKeys
      { n.emit (.signal .call) with
        requests := n.requests ++ [(Collector.start r.parts.size n.now).1] }
      { (n.restocked s k).emit (.signal .call) with
        requests := n.requests ++ [(Collector.start r.parts.size n.now).1] } := ⟨hs, rfl⟩
  exact (harrived.emitAll _).emitAll (n.preface r)

/-- A request without indexes does the same to both nodes. -/
theorem process (h : n.SameKeys m) (hr : n.IsBare r) :
    (m.process r).1 = (n.process r).1 ∧ (n.process r).2.SameKeys (m.process r).2 := by
  have hopened := h.opened r
  obtain ⟨s, k, hs, rfl⟩ := h.exists_restocked
  refine ⟨rfl, ?_⟩
  have hturns : (n.restocked s k).turns r = n.turns r := rfl
  rw [process_eq, process_eq, hturns]
  cases hts : n.turns r with
  | error e => exact hopened.failAll ..
  | ok ts => exact hopened.workAll (hr.turns hts)

theorem processDeferred (h : n.SameKeys m) (hr : n.IsBare r) :
    (n.processDeferred r).2.SameKeys (m.processDeferred r).2 := by
  have hheld : m.store.held = n.store.held := h.store.held
  rw [Node.processDeferred, Node.processDeferred, hheld]
  by_cases hpaused : n.store.held.isSome = true
  · rw [if_pos hpaused, if_pos hpaused]
    exact (h.process hr).2
  · rw [if_neg hpaused, if_neg hpaused]
    exact (h.pause.process (n := n.pause) hr).2.resume

/-- Both nodes give the same answers. -/
theorem poll (h : n.SameKeys m) (request : Nat) : m.poll request = n.poll request := by
  have hheld : m.store.heldWrites = n.store.heldWrites := congrArg (·.getD []) h.store.held
  have hrequests : m.requests = n.requests := by rw [h.rest]
  rw [Node.poll, Node.poll, hrequests, hheld]

end SameKeys

/-- Whatever was done to build a catalog, no index is on a type that is not a forward one. -/
theorem isBare_of_types {edits : List Catalog.Edit}
    (hcatalog : n.indexCatalog.getD n.catalog = Catalog.run .empty edits)
    (h : ∀ p ∈ r.parts.entries, ∀ e ∈ p.2, e.type.toInt ≤ 0 ∨
      ∀ indexes, (n.indexCatalog.getD n.catalog).edgeIndexes r.space = .ok indexes →
        ∀ i ∈ indexes, i.edgeType ≠ e.type) : n.IsBare r := by
  intro indexes hindexes p hp e he i hi htype
  rcases h p hp e he with hback | hunindexed
  · have hpos := (Catalog.sound_run edits).edgeType_pos (hcatalog ▸ hindexes) i hi
    rw [htype] at hpos
    omega
  · exact hunindexed indexes hindexes i hi htype

/-- Every catalog that can be reached has schemas for forward types only, indexes on types with a
schema only, and no two indexes with one number.  Where it tells of no index on the types of the
edges of a request, as for all types that are not forward ones, no row is read, no index state
asked for, only keys below the prefixes of the edges go, and all is the same, from the trace to
the answers, whatever the stored values and the markers are. -/
theorem rows_unread (edits : List Catalog.Edit) :
    (Catalog.run .empty edits).Sound ∧
    (∀ e, ((Catalog.run .empty edits).edit e).1 = false →
      ((Catalog.run .empty edits).edit e).2 = Catalog.run .empty edits) ∧
    ∀ (n : Node) (r : DeleteRequest),
      n.indexCatalog.getD n.catalog = Catalog.run .empty edits →
      (∀ p ∈ r.parts.entries, ∀ e ∈ p.2, e.type.toInt ≤ 0 ∨
        ∀ indexes, (n.indexCatalog.getD n.catalog).edgeIndexes r.space = .ok indexes →
          ∀ i ∈ indexes, i.edgeType ≠ e.type) →
      Adds (Event.Spares (n.Owns r)) n (n.process r).2 ∧
      Adds (Event.Spares (n.Owns r)) n (n.processDeferred r).2 ∧
      ∀ m : Node, n.SameKeys m →
        (m.process r).1 = (n.process r).1 ∧
        (n.process r).2.SameKeys (m.process r).2 ∧
        (n.process r).2.resume.2.SameKeys (m.process r).2.resume.2 ∧
        (n.processDeferred r).2.SameKeys (m.processDeferred r).2 ∧
        ∀ request, (m.process r).2.poll request = (n.process r).2.poll request ∧
          (m.process r).2.resume.2.poll request = (n.process r).2.resume.2.poll request := by
  refine ⟨Catalog.sound_run edits, fun e => Catalog.edit_of_failed, fun n r hcatalog htypes => ?_⟩
  have hbare : n.IsBare r := isBare_of_types hcatalog htypes
  refine ⟨adds_process hbare, adds_processDeferred hbare, fun m hm => ?_⟩
  obtain ⟨hnumber, hsame⟩ := hm.process hbare
  exact ⟨hnumber, hsame, hsame.resume, hm.processDeferred hbare,
    fun request => ⟨hsame.poll request, hsame.resume.poll request⟩⟩

/-- A catalog with an index on a type, built with two operations that fail. -/
def sampleEdits : List Catalog.Edit :=
  [.addSpace 1 1, .addSchema 1 (-5) [], .addSchema 1 5 [], .addIndex 1 ⟨7, 5, "since", []⟩,
    .addIndex 1 ⟨7, 5, "again", []⟩]

/-- An edge of the type in reverse. -/
def reverseEdge : Edge := ⟨[2], -5, 0, [1]⟩

def reverseRequest : DeleteRequest := (DeleteRequest.empty 1).addPart 3 [reverseEdge]

/-- A node with that catalog, which stores the edge with a row. -/
def storing (raw : Bytes) : Node :=
  { start {} (Catalog.run .empty sampleEdits) fun _ => 0 with
    store := { Store.empty with
      parts := OrderedMap.empty.insert ⟨1, 3⟩
        (OrderedMap.empty.insert (Key.record 1 3 reverseEdge) raw) } }

theorem sameKeys_storing (raw raw' : Bytes) : (storing raw).SameKeys (storing raw') := by
  refine ⟨⟨fun place => ?_, rfl⟩, rfl⟩
  simp only [storing, OrderedMap.get?_insert]
  by_cases hplace : place = ⟨1, 3⟩
  · rw [if_pos hplace, if_pos hplace]
    rfl
  · rw [if_neg hplace, if_neg hplace]

/-- It makes no difference whether the row of an edge in reverse can be read. -/
theorem rows_unread_reverse :
    ((storing [9]).catalog.decodeRow 1 (-5) [9]).isOk = false ∧
    ((storing [1, 0, 0]).catalog.decodeRow 1 (-5) [1, 0, 0]).isOk = true ∧
    ((storing [1, 0, 0]).process reverseRequest).2.codeOf? 0 3 = some .succeeded ∧
    Adds (Event.Spares ((storing [1, 0, 0]).Owns reverseRequest)) (storing [1, 0, 0])
      ((storing [1, 0, 0]).process reverseRequest).2 ∧
    ((storing [1, 0, 0]).process reverseRequest).2.SameKeys
      ((storing [9]).process reverseRequest).2 := by
  have htypes : ∀ p ∈ reverseRequest.parts.entries, ∀ e ∈ p.2, e.type.toInt ≤ 0 := by decide
  obtain ⟨-, -, hdelete⟩ := rows_unread sampleEdits
  obtain ⟨hadds, -, hsame⟩ := hdelete (storing [1, 0, 0]) reverseRequest rfl
    fun p hp e he => .inl (htypes p hp e he)
  obtain ⟨-, hprocess, -⟩ := hsame (storing [9]) (sameKeys_storing ..)
  exact ⟨by decide +kernel, by decide +kernel, by decide +kernel, hadds, hprocess⟩

end Node

end EdgeDeletion
