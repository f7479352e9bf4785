/-
An index-aware delete that succeeds is complete and touches nothing else.

If a partition reports success, the keys below the prefixes of the requested edges are
gone, and so are the entries of their records in indexes that are in the normal state.
For indexes under rebuild the log has gained the entries instead, in the order of the
request.  All other keys are as before.

* `contents_work` — the contents after a turn that succeeds, from those before it;
* `delete_complete` — the same for a request, key by key.
-/
import EdgeDeletion.Proofs.Effects

namespace EdgeDeletion

/-! ### The contents before and after -/

/-- The log holds what was added under different numbers. -/
theorem Contents.forall₂_withLog (c : Contents) (part : PartId) {numbers : List UInt64}
    {keys : List Bytes} (hlen : numbers.length = keys.length) (hne : numbers.Pairwise (· ≠ ·)) :
    List.Forall₂ (fun x key => (c.withLog part (numbers.zip keys)).get? (Key.deferral part x)
      = some key) numbers keys := by
  induction numbers generalizing c keys with
  | nil =>
    cases keys with
    | nil => exact .nil
    | cons key keys => simp at hlen
  | cons x numbers ih =>
    cases keys with
    | nil => simp at hlen
    | cons key keys =>
      obtain ⟨hx, hne⟩ := List.pairwise_cons.1 hne
      refine .cons ?_ (ih (c.insert (Key.deferral part x) key) (by simpa using hlen) hne)
      rw [List.zip_cons_cons, withLog_cons, get?_withLog_of_ne, OrderedMap.get?_insert, if_pos rfl]
      intro line hline heq
      exact hx _ (List.of_mem_zip hline).1 (Key.deferral_inj heq)

namespace Scene

/-- The contents after a delete of edges that succeeds, next to those before it.  The numbers are
those under which the log has gained entries. -/
structure Deleted (s : Scene) (edges : List Edge) (c c' : Contents) (numbers : List UInt64) :
    Prop where
  /-- Nothing is left below the prefix of a requested edge. -/
  cleared : ∀ e ∈ edges, ∀ k, Key.edgePrefix s.vidLen s.place.part e <+: k → c'.get? k = none
  /-- An index in the normal state has lost the entry of a requested edge. -/
  unindexed : ∀ e ∈ edges, ∀ k ∈ s.indexKeys .normal c e, c'.get? k = none
  /-- An index under rebuild has its entry as before. -/
  kept : ∀ e ∈ edges, ∀ k ∈ s.indexKeys .rebuilding c e, c'.get? k = c.get? k
  /-- The log had no entries under the numbers, which ascend. -/
  unused : numbers.Pairwise (· < ·) ∧ ∀ x ∈ numbers, c.get? (Key.deferral s.place.part x) = none
  /-- The log has gained an entry for each index under rebuild and each time its edge is
  requested, and no others. -/
  logged : List.Forall₂ (fun x key => c'.get? (Key.deferral s.place.part x) = some key) numbers
    (edges.flatMap (s.indexKeys .rebuilding c))
  /-- Every other key is as before. -/
  others : ∀ k, (∀ e ∈ edges, ¬Key.edgePrefix s.vidLen s.place.part e <+: k) →
    (∀ e ∈ edges, k ∉ s.indexKeys .normal c e) →
    (∀ x ∈ numbers, k ≠ Key.deferral s.place.part x) → c'.get? k = c.get? k

variable {s : Scene} {c : Contents} {edges : List Edge}

variable (hplan : ∀ e ∈ edges, (s.keysPlan e (s.found c e)).error = none)
include hplan

theorem deferredKeys_steps
    (hbare : ∀ e ∈ edges, c.get? (Key.edgePrefix s.vidLen s.place.part e) = none) :
    Step.deferredKeys (edges.flatMap (s.edgeSteps c))
      = edges.flatMap (s.indexKeys .rebuilding c) := by
  rw [Step.deferredKeys_flatMap]
  exact List.flatMap_congr fun e he => (indexKeys_edgeSteps (hplan e he) (hbare e he)).2

theorem mem_removedKeys_of_prefix {e : Edge} (he : e ∈ edges) {k v : Bytes}
    (hk : c.get? k = some v) (hpre : Key.edgePrefix s.vidLen s.place.part e <+: k) :
    k ∈ Step.removedKeys (edges.flatMap (s.edgeSteps c)) :=
  Step.mem_removedKeys_flatMap.2 ⟨e, he, mem_removedKeys_edgeSteps (hplan e he) hk hpre⟩

theorem mem_removedKeys_of_normal {e : Edge} (he : e ∈ edges)
    (hbare : c.get? (Key.edgePrefix s.vidLen s.place.part e) = none) {k : Bytes}
    (hk : k ∈ s.indexKeys .normal c e) : k ∈ Step.removedKeys (edges.flatMap (s.edgeSteps c)) :=
  Step.mem_removedKeys_flatMap.2 ⟨e, he, (indexKeys_edgeSteps (hplan e he) hbare).1 k hk⟩

/-- A key of an index under rebuild is not below a prefix, and not of an index in the normal
state. -/
theorem not_mem_removedKeys_of_rebuilding {e : Edge} {k : Bytes}
    (hk : k ∈ s.indexKeys .rebuilding c e) :
    k ∉ Step.removedKeys (edges.flatMap (s.edgeSteps c)) := by
  intro hmem
  obtain ⟨e', -, hpre | hk'⟩ := of_mem_removedKeys hplan hmem
  · have htag := (Key.head?_of_edgePrefix hpre).symm.trans (head?_of_mem_indexKeys hk)
    simp [Key.edgeTag, Key.indexTag] at htag
  · have hstate := state_of_mem_indexKeys hk hk'
    simp at hstate

/-- What the operations of the steps lead to. -/
theorem deleted_of_steps {numbers : List UInt64}
    (hbare : ∀ e ∈ edges, c.get? (Key.edgePrefix s.vidLen s.place.part e) = none)
    (hlen : numbers.length = (Step.deferredKeys (edges.flatMap (s.edgeSteps c))).length)
    (hascend : numbers.Pairwise (· < ·))
    (hunused : ∀ x ∈ numbers, c.get? (Key.deferral s.place.part x) = none) :
    s.Deleted edges c ((c.without (Step.removedKeys (edges.flatMap (s.edgeSteps c)))).withLog
      s.place.part (numbers.zip (Step.deferredKeys (edges.flatMap (s.edgeSteps c))))) numbers := by
  have hbelow := fun e he k v => mem_removedKeys_of_prefix (e := e) (k := k) (v := v) hplan he
  have hnormal := fun e he k => mem_removedKeys_of_normal (e := e) (k := k) hplan he (hbare e he)
  have hrebuilding := fun e k => not_mem_removedKeys_of_rebuilding (e := e) (k := k) hplan
  have hof := fun k => of_mem_removedKeys (k := k) hplan
  rw [deferredKeys_steps hplan hbare] at hlen ⊢
  generalize Step.removedKeys (edges.flatMap (s.edgeSteps c)) = removed at *
  generalize hdeferred : edges.flatMap (s.indexKeys .rebuilding c) = deferred at *
  -- away from the new entries of the log, only removals show
  have hview : ∀ k, (∀ x ∈ numbers, k ≠ Key.deferral s.place.part x) →
      ((c.without removed).withLog s.place.part (numbers.zip deferred)).get? k
        = if k ∈ removed then none else c.get? k := by
    exact fun k => Contents.get?_without_withLog
  -- keys of edges and of indexes are such keys
  have hnoLog : ∀ {k : Bytes} {tag}, k.head? = some tag → tag ≠ Key.operationTag →
      ∀ x ∈ numbers, k ≠ Key.deferral s.place.part x := by
    intro k tag hk htag x _
    exact Key.ne_deferral_of_head? (by simp [hk, htag]) _ _
  refine ⟨?_, ?_, ?_, ⟨hascend, hunused⟩, ?_, ?_⟩
  · intro e he k hpre
    rw [hview k (hnoLog (Key.head?_of_edgePrefix hpre) (by decide))]
    cases hk : c.get? k with
    | none => simp
    | some v => simp [hbelow e he k v hk hpre]
  · intro e he k hk
    rw [hview k (hnoLog (head?_of_mem_indexKeys hk) (by decide)), if_pos (hnormal e he k hk)]
  · intro e he k hk
    rw [hview k (hnoLog (head?_of_mem_indexKeys hk) (by decide)), if_neg (hrebuilding e k hk)]
  · rw [hdeferred]
    exact Contents.forall₂_withLog _ _ hlen (hascend.imp UInt64.ne_of_lt)
  · intro k hpre hkey hnew
    have hnot : k ∉ removed := by
      intro hmem
      obtain ⟨e, he, hk | hk⟩ := hof k hmem
      · exact hpre e he hk
      · exact hkey e he hk
    rw [hview k hnew, if_neg hnot]

end Scene

/-! ### Turns that succeed -/

namespace Node

variable {n : Node} {t : Turn}

theorem contents_work {c : Contents} (hheld : n.store.held = none)
    (hlen : t.request < n.requests.length) (hnone : n.codeOf? t.request t.place.part = none)
    (hindexes : t.indexes.isEmpty = false) (hc : n.store.contents t.place = .ok c)
    (hcode : (n.work t).codeOf? t.request t.place.part = some .succeeded) :
    (∀ e ∈ t.edges, e.hasWidth t.vidLen = true ∧
        ((n.scene t).keysPlan e ((n.scene t).found c e)).error = none) ∧
      (n.work t).sequencer
        = (n.sequencer.drawMany (Step.deferredKeys (n.stepsOf t c)).length).2 ∧
      (n.work t).store.contents t.place
        = .ok ((c.without (Step.removedKeys (n.stepsOf t c))).withLog t.place.part
            ((n.sequencer.drawMany (Step.deferredKeys (n.stepsOf t c)).length).1.zip
              (Step.deferredKeys (n.stepsOf t c)))) := by
  obtain ⟨change, edges, hold, hverdict, hok, hstore⟩ := write_of_succeeded hheld hlen hnone hcode
  obtain ⟨hdoes, -, hsequencer⟩ := does_of_verdict hverdict
  have hdeferred := deferredIn_of_contents hindexes hc
  rw [numbersIn, hdeferred, removedIn_of_contents hindexes hc] at hdoes
  rcases of_verdict_write hverdict with ⟨hempty, -⟩ | ⟨-, herror, -⟩
  · simp [hempty] at hindexes
  refine ⟨(Scene.plan_steps hc herror).1, ?_, ?_⟩
  · rw [sequencer_work, hsequencer, hdeferred]
  · -- what is written is what the payload decodes to
    obtain ⟨c', ops, hc', hops, hparts⟩ := Store.apply_of_ok hok
    obtain rfl : c = c' := by
      have hc' : (n.planned t).store.parts.get? t.place = some c' := hc'
      rw [planned_parts, Store.contents_eq_ok_iff.1 hc] at hc'
      exact Option.some.inj hc'
    rw [hstore, Store.contents_eq_ok_iff, hparts, ← hdoes ops hops c]
    exact (OrderedMap.get?_insert ..).trans (if_pos rfl)

/-- A turn that succeeds has deleted its edges. -/
theorem deleted_work {c : Contents} (hheld : n.store.held = none)
    (hlen : t.request < n.requests.length) (hnone : n.codeOf? t.request t.place.part = none)
    (hindexes : t.indexes.isEmpty = false) (hc : n.store.contents t.place = .ok c)
    (hbare : ∀ e ∈ t.edges, c.get? (Key.edgePrefix t.vidLen t.place.part e) = none)
    (hcode : (n.work t).codeOf? t.request t.place.part = some .succeeded) :
    ∃ k c', (n.work t).sequencer = (n.sequencer.drawMany k).2 ∧
      (n.work t).store.contents t.place = .ok c' ∧
      ((n.sequencer.drawMany k).1.Pairwise (· < ·) →
        (∀ x ∈ (n.sequencer.drawMany k).1, c.get? (Key.deferral t.place.part x) = none) →
        (n.scene t).Deleted t.edges c c' (n.sequencer.drawMany k).1) := by
  obtain ⟨hplan, hdrawn, hafter⟩ := contents_work hheld hlen hnone hindexes hc hcode
  refine ⟨_, _, hdrawn, hafter, fun hascend hunused => ?_⟩
  exact Scene.deleted_of_steps (fun e he => (hplan e he).2) hbare (Sequencer.length_drawMany ..)
    hascend hunused

/-- **An index-aware delete is complete and touches nothing else.**  This takes it that no bare
prefix of an edge is a key, and that the numbers drawn are new to the partition and do not run
out: only the last of them may be the greatest there is. -/
theorem delete_complete {n : Node} {r : DeleteRequest} {part : PartId} {edges : List Edge}
    {vidLen : Nat} {indexes : List Index} {c : Contents}
    (hheld : n.store.held = none)
    (hvidLen : n.catalog.vidLen r.space = .ok vidLen)
    (hindexes : (n.indexCatalog.getD n.catalog).edgeIndexes r.space = .ok indexes)
    (hsome : indexes ≠ [])
    (hpart : (part, edges) ∈ r.parts.entries)
    (hc : n.store.contents ⟨r.space, part⟩ = .ok c)
    (hbare : ∀ e ∈ edges, c.get? (Key.edgePrefix vidLen part e) = none)
    (hbelow : ∀ x ∈ (n.drawnUntil (n.process r).2).dropLast, x ≠ 0xffffffffffffffff)
    (hunused : ∀ x ∈ n.drawnUntil (n.process r).2, c.get? (Key.deferral part x) = none)
    (hcode : (n.process r).2.codeOf? n.requests.length part = some .succeeded) :
    ∃ c' numbers, (n.process r).2.store.contents ⟨r.space, part⟩ = .ok c' ∧
      (∀ x ∈ numbers, x ∈ n.drawnUntil (n.process r).2) ∧
      Scene.Deleted ⟨n.catalog, n.markers, indexes, ⟨r.space, part⟩, vidLen, n.inflight + 1⟩
        edges c c' numbers := by
  have hturns : ∃ ts, n.turns r = .ok ts := by
    rw [turns, hvidLen, hindexes]
    exact ⟨_, rfl⟩
  obtain ⟨ts, hturns⟩ := hturns
  obtain ⟨_, _, hvidLen', hindexes', -, -, hat⟩ := atTurn_of_mem hheld hturns hpart
  obtain rfl := Except.ok.inj (hvidLen.symm.trans hvidLen')
  obtain rfl := Except.ok.inj (hindexes.symm.trans hindexes')
  generalize n.reached r (· < part) = m at hat
  obtain ⟨k, c', hdrawn, hafter, hdeleted⟩ := deleted_work hat.held hat.listed hat.silent
    (by simpa using hsome) (Store.contents_eq_ok_iff.2 (hat.before.trans
      (Store.contents_eq_ok_iff.1 hc))) hbare (hat.code.symm.trans hcode)
  have hfinal : (n.process r).2.store.contents ⟨r.space, part⟩ = .ok c' :=
    Store.contents_eq_ok_iff.2 (hat.after.trans (Store.contents_eq_ok_iff.1 hafter))
  -- the numbers of the turn are some of all that were drawn
  have hdrawn := hat.sublist_drawn hdrawn
  rw [hat.scene] at hdeleted
  exact ⟨c', _, hfinal, fun x hx => hdrawn.subset hx,
    hdeleted ((drawnUntil_ascending hbelow).sublist hdrawn) fun x hx =>
      hunused x (hdrawn.subset hx)⟩

/-! ### A node with one stored edge -/

/-- An edge of a space whose vertices are one byte wide. -/
def sampleEdge : Edge := ⟨[1], 5, 0, [2]⟩

/-- A partition with the record of an edge and its entry in an index. -/
def sampleContents : Contents :=
  (OrderedMap.empty.insert (Key.record 1 3 sampleEdge) [1, 0, 0]).insert
    (Key.entry 1 3 7 sampleEdge []) []

/-- A node with that partition, whose index is being rebuilt. -/
def sample : Node :=
  { start {} ⟨OrderedMap.empty.insert 1 ⟨1, OrderedMap.empty.insert 5 [], [⟨7, 5, "since", []⟩]⟩⟩
      fun _ => 0 with
    markers := IndexMarkers.empty.setIndex ⟨1, 3⟩ 7 .rebuilding
    store := { Store.empty with parts := OrderedMap.empty.insert ⟨1, 3⟩ sampleContents } }

/-- A request that names the edge twice. -/
def sampleRequest : DeleteRequest := (DeleteRequest.empty 1).addPart 3 [sampleEdge, sampleEdge]

theorem delete_complete_sample :
    (sample.process sampleRequest).2.codeOf? 0 3 = some .succeeded ∧
      ∃ c' numbers, (sample.process sampleRequest).2.store.contents ⟨1, 3⟩ = .ok c' ∧
        (∀ x ∈ numbers, x ∈ sample.drawnUntil (sample.process sampleRequest).2) ∧
        Scene.Deleted ⟨sample.catalog, sample.markers, [⟨7, 5, "since", []⟩], ⟨1, 3⟩, 1, 1⟩
          [sampleEdge, sampleEdge] sampleContents c' numbers := by
  have hcode : (sample.process sampleRequest).2.codeOf? 0 3 = some .succeeded := by decide +kernel
  have hbelow : ∀ x ∈ (sample.drawnUntil (sample.process sampleRequest).2).dropLast,
      x ≠ 0xffffffffffffffff := by
    have hall : (sample.drawnUntil (sample.process sampleRequest).2).dropLast.all
        fun x => x != 0xffffffffffffffff := by decide +kernel
    simpa using hall
  have hunused : ∀ x ∈ sample.drawnUntil (sample.process sampleRequest).2,
      sampleContents.get? (Key.deferral 3 x) = none := by
    -- by the list, since there are too many numbers to run through them all
    have hall : (sample.drawnUntil (sample.process sampleRequest).2).all
        fun x => sampleContents.get? (Key.deferral 3 x) = none := by decide +kernel
    simpa using hall
  have hbare : ∀ e ∈ [sampleEdge, sampleEdge],
      sampleContents.get? (Key.edgePrefix 1 3 e) = none := by decide +kernel
  exact ⟨hcode, delete_complete rfl rfl rfl (by simp) (by decide) rfl hbare hbelow hunused hcode⟩

end Node

end EdgeDeletion
