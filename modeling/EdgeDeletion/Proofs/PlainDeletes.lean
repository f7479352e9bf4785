/-
Deleting in a space without indexes.

The current records of the edges are removed directly.  A record key is the key of no lock, of
no stale version, of no index entry and of no line of the log, and it stands below the prefix of
one edge only, so nothing else goes.  One edge that has not the width of the space stops the
whole partition.  No edge is claimed for it and no write is counted as in flight, so the claims
and counts of others do not matter and stay.

* `withoutRecords_without` — what is left when the record keys are gone;
* `unguarded_strokesOfRequest`, `strikeAll_unguarded` — no moment of such a request touches a
  claim or a count;
* `plain_deletes_exact` — what a partition comes to.
-/
import EdgeDeletion.Proofs.Paths
import EdgeDeletion.Proofs.Timeline

namespace EdgeDeletion

/-! ### Contents without records -/

/-- Contents without the current records of some edges.  Everything else is as before, be it a key
of one of these edges or of anything else. -/
structure WithoutRecords (vidLen : Nat) (part : PartId) (edges : List Edge) (c c' : Contents) :
    Prop where
  gone : ∀ e ∈ edges, c'.get? (Key.record vidLen part e) = none
  kept : ∀ k, (∀ e ∈ edges, k ≠ Key.record vidLen part e) → c'.get? k = c.get? k
  locks : ∀ part' e lockId,
    c'.get? (Key.lock vidLen part' e lockId) = c.get? (Key.lock vidLen part' e lockId)
  versions : ∀ part' e version,
    c'.get? (Key.stale vidLen part' e version) = c.get? (Key.stale vidLen part' e version)
  entries : ∀ part' index e image, c'.get? (Key.entry vidLen part' index e image)
    = c.get? (Key.entry vidLen part' index e image)
  log : ∀ part' sequence,
    c'.get? (Key.deferral part' sequence) = c.get? (Key.deferral part' sequence)
  /-- All keys of an edge that is not listed, or of one of another partition. -/
  others : ∀ part' e, e.hasWidth vidLen = true → (part' ≠ part ∨ e ∉ edges) →
    ∀ k, Key.edgePrefix vidLen part' e <+: k → c'.get? k = c.get? k

namespace Key

variable {vidLen : Nat} {part part' : PartId} {e e' : Edge} {k : Bytes}

theorem ne_record_of_kind (h : kind vidLen k ≠ .record) (part : PartId) (e : Edge) :
    k ≠ record vidLen part e := by
  rintro rfl
  exact h (kind_record vidLen part e)

theorem ne_record_of_head? (h : k.head? ≠ some edgeTag) (part : PartId) (e : Edge) :
    k ≠ record vidLen part e := by
  rintro rfl
  exact h (head?_record vidLen part e)

end Key

/-- What is left when the record keys of edges of the right width are gone. -/
theorem withoutRecords_without {vidLen : Nat} {edges : List Edge}
    (hwidth : ∀ e ∈ edges, e.hasWidth vidLen = true) (part : PartId) (c : Contents) :
    WithoutRecords vidLen part edges c (c.without (edges.map (Key.record vidLen part))) := by
  have hkept : ∀ k, (∀ e ∈ edges, k ≠ Key.record vidLen part e) →
      (c.without (edges.map (Key.record vidLen part))).get? k = c.get? k := by
    intro k hk
    rw [Contents.get?_without, if_neg]
    intro hmem
    obtain ⟨e, he, rfl⟩ := List.mem_map.1 hmem
    exact hk e he rfl
  refine ⟨fun e he => ?_, hkept, fun part' e lockId => hkept _ fun e' _ => ?_,
    fun part' e version => hkept _ fun e' _ => ?_,
    fun part' index e image => hkept _ fun e' _ => ?_,
    fun part' sequence => hkept _ fun e' _ => ?_,
    fun part' e he hother k hpre => hkept k fun e' he' => ?_⟩
  · rw [Contents.get?_without, if_pos (List.mem_map_of_mem he)]
  · exact Key.ne_record_of_kind (by rw [Key.kind_lock]; decide) part e'
  · exact Key.ne_record_of_kind (by rw [Key.kind_stale]; decide) part e'
  · exact Key.ne_record_of_head? (by rw [Key.head?_entry]; decide) part e'
  · exact Key.ne_record_of_head? (by rw [Key.head?_deferral]; decide) part e'
  · -- a record key stands below the prefix of its own edge and of no other one
    rintro rfl
    obtain ⟨rfl, rfl⟩ := Key.edgePrefix_unique he (hwidth e' he') hpre
      (Key.edgePrefix_prefix_record vidLen part e')
    rcases hother with hpart | hlisted
    · exact hpart rfl
    · exact hlisted he'

/-! ### No claims and no counts -/

namespace Stroke

/-- Whether a stroke has nothing to do with claims and with the count of writes in flight. -/
def isUnguarded : Stroke → Bool
  | .note _ | .look .. | .lose _ | .submit _ | .apply _ | .refuse .. | .report .. | .arrive .. =>
    true
  | _ => false

theorem isUnguarded_notes (es : List Event) : ∀ σ ∈ es.map note, σ.isUnguarded = true := by
  simp [isUnguarded]

/-- The end of a write that keeps nothing gives nothing up. -/
theorem isUnguarded_ofCompletion {c : Completion Submitter} {request edges : Nat} {part : PartId}
    (h : c.token = .partition request part edges none) :
    ∀ σ ∈ ofCompletion c, σ.isUnguarded = true := by
  obtain ⟨token, result, rejected⟩ := c
  obtain rfl : token = .partition request part edges none := h
  intro σ hσ
  rcases List.mem_append.1 hσ with hσ | hσ
  · obtain ⟨cause, -, rfl⟩ := List.mem_map.1 hσ
    rfl
  · simp only [ofRelease, List.nil_append, List.mem_append, List.mem_singleton] at hσ
    rcases hσ with hσ | rfl
    · exact isUnguarded_notes _ σ hσ
    · rfl

theorem isUnguarded_ofSubmit {w : Write Submitter} {request edges : Nat} {part : PartId}
    (h : w.token = .partition request part edges none) (s : Store Submitter) :
    ∀ σ ∈ ofSubmit s w, σ.isUnguarded = true := by
  intro σ hσ
  rw [ofSubmit, List.mem_cons] at hσ
  rcases hσ with rfl | hσ
  · rfl
  · by_cases hheld : s.held.isSome = true
    · simp [hheld] at hσ
    · rw [if_neg hheld, ofWrites, ofWrites, List.append_nil, List.mem_cons] at hσ
      rcases hσ with rfl | hσ
      · rfl
      · exact isUnguarded_ofCompletion ((s.counted.apply_token w).trans h) σ hσ

end Stroke

namespace Node

variable {n : Node} {r : DeleteRequest} {t : Turn}

theorem unguarded_strokesOf (n : Node) (hindexes : t.indexes.isEmpty = true) :
    ∀ σ ∈ n.strokesOf t, σ.isUnguarded = true := by
  intro σ hσ
  rw [strokesOf, if_pos hindexes, strokesOfPlain] at hσ
  cases hwidth : t.edges.findSome? (Scene.widthError? t.vidLen) with
  | some e =>
    simp only [hwidth, List.mem_cons, List.not_mem_nil, or_false] at hσ
    rcases hσ with rfl | rfl <;> rfl
  | none =>
    simp only [hwidth, List.mem_cons] at hσ
    rcases hσ with rfl | hσ
    · rfl
    · rw [strokesOfWrite] at hσ
      by_cases hlost : n.losesNext = true
      · rw [if_pos hlost, Stroke.ofRelease, List.mem_singleton] at hσ
        rw [hσ]
        rfl
      · rw [if_neg hlost] at hσ
        exact Stroke.isUnguarded_ofSubmit rfl n.store σ hσ

theorem unguarded_strokesOfAll {ts : List Turn} (hindexes : ∀ t ∈ ts, t.indexes.isEmpty = true)
    (n : Node) : ∀ σ ∈ n.strokesOfAll ts, σ.isUnguarded = true := by
  induction ts generalizing n with
  | nil => exact nofun
  | cons t ts ih =>
    intro σ hσ
    rcases List.mem_append.1 hσ with hσ | hσ
    · exact n.unguarded_strokesOf (hindexes t (List.mem_cons_self ..)) σ hσ
    · exact ih (fun t ht => hindexes t (List.mem_cons_of_mem _ ht)) (n.work t) σ hσ

/-- A request in a space without indexes has nothing to do with claims and counts. -/
theorem unguarded_strokesOfRequest
    (hindexes : (n.indexCatalog.getD n.catalog).edgeIndexes r.space = .ok []) :
    ∀ σ ∈ n.strokesOfRequest r, σ.isUnguarded = true := by
  intro σ hσ
  rw [strokesOfRequest, List.mem_append] at hσ
  rcases hσ with hσ | hσ
  · rw [strokesOfArrival, List.mem_cons, List.mem_cons] at hσ
    rcases hσ with rfl | rfl | hσ
    · rfl
    · rfl
    · exact Stroke.isUnguarded_notes _ σ hσ
  · rw [strokesOfParts] at hσ
    cases hturns : n.turns r with
    | error e =>
      simp only [hturns, List.mem_map] at hσ
      obtain ⟨part, -, rfl⟩ := hσ
      rfl
    | ok ts =>
      simp only [hturns] at hσ
      obtain ⟨vidLen, indexes, -, hindexes', rfl⟩ := eq_of_turns hturns
      obtain rfl := Except.ok.inj (hindexes.symm.trans hindexes')
      refine unguarded_strokesOfAll (fun t ht => ?_) (n.opened r) σ hσ
      obtain ⟨p, -, rfl⟩ := List.mem_map.1 ht
      rfl

end Node

namespace Session

theorem strike_unguarded {σ : Stroke} (h : σ.isUnguarded = true) (s : Session) :
    (s.strike σ).node.locks = s.node.locks ∧ (s.strike σ).node.inflight = s.node.inflight := by
  cases σ with
  | refuse slot code | report slot code =>
    have hquiet := s.node.quiet_report slot.request slot.part code
    exact ⟨(congrArg Node.locks hquiet).trans rfl, (congrArg Node.inflight hquiet).trans rfl⟩
  | arrive request r =>
    have hquiet := Node.quiet_emitAll { s.node with
      requests := s.node.requests ++ [(Collector.start r.parts.size s.node.now).1] }
      (Collector.start r.parts.size s.node.now).2
    exact ⟨(congrArg Node.locks hquiet).trans rfl, (congrArg Node.inflight hquiet).trans rfl⟩
  | track | untrack | claim | release | spend | unhold | drive => cases h
  | _ => exact ⟨rfl, rfl⟩

theorem strikeAll_unguarded {strokes : List Stroke} (h : ∀ σ ∈ strokes, σ.isUnguarded = true)
    (s : Session) : (s.strikeAll strokes).node.locks = s.node.locks ∧
      (s.strikeAll strokes).node.inflight = s.node.inflight := by
  induction strokes generalizing s with
  | nil => exact ⟨rfl, rfl⟩
  | cons σ strokes ih =>
    obtain ⟨hlocks, hinflight⟩ := strike_unguarded (h σ (List.mem_cons_self ..)) s
    obtain ⟨hlocks', hinflight'⟩ := ih (fun σ hσ => h σ (List.mem_cons_of_mem _ hσ)) (s.strike σ)
    exact ⟨hlocks'.trans hlocks, hinflight'.trans hinflight⟩

end Session

/-! ### The turn of a partition -/

namespace Node

variable {n m : Node} {r : DeleteRequest} {t : Turn} {part : PartId} {edges : List Edge}
  {vidLen : Nat} {c : Contents}

/-- What a partition of a request comes to in a space without indexes, from the contents that it
has before. -/
structure DeletedPlain (n : Node) (r : DeleteRequest) (part : PartId) (edges : List Edge)
    (vidLen : Nat) (c : Contents) : Prop where
  succeeded : (n.process r).2.codeOf? n.requests.length part = some .succeeded ↔
    ∀ e ∈ edges, e.src.length = vidLen ∧ e.dst.length = vidLen
  /-- Then one write was submitted, and the records are gone. -/
  removed : (∀ e ∈ edges, e.src.length = vidLen ∧ e.dst.length = vidLen) →
    ∃ c', (n.process r).2.store.contents ⟨r.space, part⟩ = .ok c' ∧
      WithoutRecords vidLen part edges c c' ∧
      (n.reached r (· ≤ part)).store.submissions
        = (n.reached r (· < part)).store.submissions + 1
  /-- Otherwise nothing was submitted, and the store is as it was before the turn. -/
  refused : ¬(∀ e ∈ edges, e.src.length = vidLen ∧ e.dst.length = vidLen) →
    (n.process r).2.codeOf? n.requests.length part = some .invalidVertexIdLength ∧
      (n.process r).2.store.contents ⟨r.space, part⟩ = .ok c ∧
      (n.reached r (· ≤ part)).store = (n.reached r (· < part)).store
  conflict : (n.process r).2.codeOf? n.requests.length part ≠ some .dataConflict
  /-- At no moment of the request a claim or a count is taken or given up. -/
  unguarded : ∀ s : Session, s.node = n → ∀ front, front <+: n.strokesOfRequest r →
    (s.strikeAll front).node.locks = n.locks ∧ (s.strikeAll front).node.inflight = n.inflight

/-- No edge has a wrong width if all have the width. -/
theorem widthErrors_eq_none_iff : edges.findSome? (Scene.widthError? vidLen) = none ↔
    ∀ e ∈ edges, e.src.length = vidLen ∧ e.dst.length = vidLen := by
  rw [List.findSome?_eq_none_iff]
  refine forall₂_congr fun e _ => ?_
  rw [Scene.widthError?, ← Edge.hasWidth_iff]
  by_cases h : e.hasWidth vidLen = true <;> simp [h]

theorem code_of_widthError {e : Edge} {error : DeleteError}
    (h : Scene.widthError? vidLen e = some error) : error.code = .invalidVertexIdLength := by
  rw [Scene.widthError?] at h
  split at h
  · cases h
  · obtain rfl := Option.some.inj h
    rfl

/-- A turn with an edge that has not the width leaves the store as it is. -/
theorem ends_plain_of_width (hready : n.Ready t) (hindexes : t.indexes.isEmpty = true)
    {error : DeleteError}
    (hwidth : t.edges.findSome? (Scene.widthError? t.vidLen) = some error) :
    n.Ends t .invalidVertexIdLength [] [] ∧ (n.work t).store = n.store := by
  have hverdict : n.verdict t = .refused error := by rw [verdict, if_pos hindexes, hwidth]
  obtain ⟨e, -, he⟩ := List.exists_of_findSome?_eq_some hwidth
  have hends := ends_of_refused hready hverdict
  rw [code_of_widthError he] at hends
  refine ⟨hends, ?_⟩
  rw [store_work hready.held, hverdict, planned, if_pos hindexes]

/-- **In a space without indexes exactly the records are removed.**  Writes are not held back and
none gets lost, and the partition is here without a failure ahead of its next write.  Then it
succeeds if all edges have the width of the space, and what goes are their current records.
Otherwise nothing is submitted, and nothing changes.  Claims and counts are left alone throughout,
and no conflict is reported, whatever is claimed. -/
theorem plain_deletes_exact (hheld : n.store.held = none) (hkeeps : n.losesNext = false)
    (hindexes : (n.indexCatalog.getD n.catalog).edgeIndexes r.space = .ok [])
    (hvidLen : n.catalog.vidLen r.space = .ok vidLen) (hpart : (part, edges) ∈ r.parts.entries)
    (hc : n.store.contents ⟨r.space, part⟩ = .ok c)
    (hfault : n.store.writeFaults.get? ⟨r.space, part⟩ = none) :
    DeletedPlain n r part edges vidLen c := by
  obtain ⟨ts, hturns⟩ := exists_turns hvidLen hindexes
  obtain ⟨_, _, hvidLen', hindexes', -, hturn, hat⟩ := atTurn_of_mem hheld hturns hpart
  obtain rfl := Except.ok.inj (hvidLen.symm.trans hvidLen')
  obtain rfl := Except.ok.inj (hindexes.symm.trans hindexes')
  obtain ⟨-, hlost, hagree⟩ := agree_reached hheld hkeeps hturns part
  have hunguarded : ∀ s : Session, s.node = n → ∀ front, front <+: n.strokesOfRequest r →
      (s.strikeAll front).node.locks = n.locks ∧
        (s.strikeAll front).node.inflight = n.inflight := by
    rintro s rfl front hfront
    exact Session.strikeAll_unguarded
      (fun σ hσ => unguarded_strokesOfRequest hindexes σ (hfront.subset hσ)) s
  have hready : (n.reached r (· < part)).Ready
      ⟨n.requests.length, ⟨r.space, part⟩, vidLen, [], edges⟩ :=
    ⟨hat.held, hlost, hat.listed, hat.silent⟩
  cases hwidth : edges.findSome? (Scene.widthError? vidLen) with
  | none =>
    have hwide := (widthErrors_eq_none_iff).1 hwidth
    obtain ⟨hends, hsubmissions⟩ := ends_plain hready rfl hwidth (hagree.contents.symm.trans hc)
      (hagree.writeFault.symm.trans hfault)
    have hcode := hat.code.trans hends.code
    have hafter := hat.contents_of_ends rfl hc hends
    refine ⟨⟨fun _ => hwide, fun _ => hcode⟩, fun _ => ⟨_, hafter, ?_, ?_⟩,
      fun hnot => absurd hwide hnot, ?_, hunguarded⟩
    · exact withoutRecords_without (fun e he => Edge.hasWidth_iff.2 (hwide e he)) part c
    · rw [hturn, hsubmissions]
    · rw [hcode]
      decide
  | some e =>
    have hnot : ¬∀ e ∈ edges, e.src.length = vidLen ∧ e.dst.length = vidLen := fun hwide => by
      rw [widthErrors_eq_none_iff.2 hwide] at hwidth
      cases hwidth
    obtain ⟨hends, hstore⟩ := ends_plain_of_width hready rfl hwidth
    have hcode := hat.code.trans hends.code
    have hafter := hat.contents_of_ends rfl hc hends
    rw [Contents.without_nil] at hafter
    refine ⟨⟨fun h => ?_, fun hwide => absurd hwide hnot⟩, fun hwide => absurd hwide hnot,
      fun _ => ⟨hcode, hafter, ?_⟩, ?_, hunguarded⟩
    · rw [hcode] at h
      exact absurd h (by decide)
    · rw [hturn, hstore]
    · rw [hcode]
      decide

/-- A partition with the record, a lock and a stale version of one edge. -/
def sampleVersions : Contents :=
  ((OrderedMap.empty.insert (Key.record 1 3 sampleEdge) []).insert
    (Key.lock 1 3 sampleEdge [9]) []).insert (Key.stale 1 3 sampleEdge 7) []

/-- A node with that partition and without indexes.  Somebody has claimed the edge, and something
is counted as in flight. -/
def sampleGuarded : Node :=
  { sample.lookingIn (sampleCatalog []) with
    store := { Store.empty with parts := OrderedMap.empty.insert ⟨1, 3⟩ sampleVersions }
    locks := sample.locks.hold [⟨⟨1, 3⟩, sampleEdge⟩]
    inflight := 1 }

/-- A request with an edge whose source is too long behind one of the right width. -/
def mixedRequest : DeleteRequest :=
  (DeleteRequest.empty 1).addPart 3 [sampleEdge, { sampleEdge with src := [1, 1] }]

theorem plain_deletes_exact_guarded :
    DeletedPlain sampleGuarded sampleRequest 3 [sampleEdge, sampleEdge] 1 sampleVersions ∧
      (sampleGuarded.process sampleRequest).2.codeOf? 0 3 = some .succeeded ∧
      (sampleGuarded.process mixedRequest).2.codeOf? 0 3 = some .invalidVertexIdLength ∧
      (sampleGuarded.process mixedRequest).2.store.contents ⟨1, 3⟩ = .ok sampleVersions := by
  have hdeleted : DeletedPlain sampleGuarded sampleRequest 3 [sampleEdge, sampleEdge] 1
      sampleVersions := plain_deletes_exact rfl rfl rfl rfl (by decide) rfl rfl
  have hmixed : DeletedPlain sampleGuarded mixedRequest 3
      [sampleEdge, { sampleEdge with src := [1, 1] }] 1 sampleVersions :=
    plain_deletes_exact rfl rfl rfl rfl (by decide) rfl rfl
  obtain ⟨hcode, hcontents, -⟩ := hmixed.refused (by decide)
  exact ⟨hdeleted, hdeleted.succeeded.2 (by decide), hcode, hcontents⟩

end Node

end EdgeDeletion
