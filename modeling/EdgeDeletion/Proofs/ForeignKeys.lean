/-
Deletes in partitions with keys of any shape.

A scan below the prefix of an edge takes the record for what it is only if nothing but
locks comes before it.  Of all keys below the prefix just one can be in the way: the
bare prefix itself, which comes before the locks.  Where it is stored, the record goes
like any other key, and nothing is done to the indexes.

* `edgeSteps_of_bare` — the steps for an edge whose bare prefix is a key;
* `maintained_of_steps` — what a delete does to contents without any restriction;
* `entries_go_with_records` — the same for a request that succeeds;
* `bare_prefix_leaves_entry` — an entry that is left behind.
-/
import EdgeDeletion.Proofs.PartIsolation

namespace EdgeDeletion

namespace Scene

variable {s : Scene} {c : Contents} {edge : Edge} {edges : List Edge}

/-! ### The bare prefix -/

/-- A bare prefix is found before all other keys. -/
theorem found_of_bare {v : Bytes}
    (hbare : c.get? (Key.edgePrefix s.vidLen s.place.part edge) = some v) :
    ∃ rest, s.found c edge = (Key.edgePrefix s.vidLen s.place.part edge, v) :: rest := by
  have hmem : (Key.edgePrefix s.vidLen s.place.part edge, v) ∈ s.found c edge :=
    s.mem_found.2 ⟨hbare, List.prefix_refl _⟩
  have hord : (s.found c edge).Pairwise fun a b => KeyOrder.before a.1 b.1 = true :=
    Store.entriesFrom_ordered c _
  have hpre : ∀ e ∈ s.found c edge, Key.edgePrefix s.vidLen s.place.part edge <+: e.1 :=
    fun e he => (s.mem_found.1 he).2
  cases hfound : s.found c edge with
  | nil => simp [hfound] at hmem
  | cons first rest =>
    rw [hfound] at hmem hord hpre
    rcases List.mem_cons.1 hmem with hfirst | hlater
    · exact ⟨rest, by rw [hfirst]⟩
    · -- what is found below the prefix does not come before it
      have hbefore : KeyOrder.before first.1 (Key.edgePrefix s.vidLen s.place.part edge) = true :=
        (List.pairwise_cons.1 hord).1 _ hlater
      have hafter : KeyOrder.before first.1 (Key.edgePrefix s.vidLen s.place.part edge) = false :=
        KeyOrder.listBefore_of_prefix (hpre first (List.mem_cons_self ..))
      simp [hafter] at hbefore

/-- Where the bare prefix is a key, all that is found goes, and nothing else. -/
theorem edgeSteps_of_bare {v : Bytes}
    (hbare : c.get? (Key.edgePrefix s.vidLen s.place.part edge) = some v) :
    s.edgeSteps c edge = (s.found c edge).map fun e => Step.version e.1 := by
  obtain ⟨rest, hfound⟩ := found_of_bare hbare
  have hkind : Key.kind s.vidLen (Key.edgePrefix s.vidLen s.place.part edge) = .other := by
    simpa [Key.kindOfRest] using Key.kind_edgePrefix_append s.vidLen s.place.part edge []
  -- the first key is no lock and no record, so neither is looked for any more
  rw [edgeSteps, hfound]
  simp [keysPlan, hkind, Plan.ofSteps, Plan.andThen]

/-- The edges whose bare prefix is no key. -/
def regular (s : Scene) (c : Contents) (edges : List Edge) : List Edge :=
  edges.filter fun e => (c.get? (Key.edgePrefix s.vidLen s.place.part e)).isNone

theorem mem_regular : edge ∈ s.regular c edges ↔
    edge ∈ edges ∧ c.get? (Key.edgePrefix s.vidLen s.place.part edge) = none := by
  simp [regular]

/-! ### Steps for any contents -/

section Steps

variable (hplan : ∀ e ∈ edges, (s.keysPlan e (s.found c e)).error = none)
include hplan

/-- Entries are deferred for the edges whose bare prefix is no key. -/
theorem deferredKeys_regular :
    Step.deferredKeys (edges.flatMap (s.edgeSteps c))
      = (s.regular c edges).flatMap (s.indexKeys .rebuilding c) := by
  rw [Step.deferredKeys_flatMap]
  induction edges with
  | nil => rfl
  | cons e edges ih =>
    have ih := ih fun e' he' => hplan e' (List.mem_cons_of_mem _ he')
    rw [regular] at ih ⊢
    rw [List.flatMap_cons, ih]
    cases hbare : c.get? (Key.edgePrefix s.vidLen s.place.part e) with
    | none =>
      rw [(indexKeys_edgeSteps (hplan e (List.mem_cons_self ..)) hbare).2,
        List.filter_cons_of_pos (by simp [hbare]), List.flatMap_cons]
    | some v =>
      have hnone : Step.deferredKeys (s.edgeSteps c e) = [] := by
        rw [edgeSteps_of_bare hbare]
        exact Step.deferredKeys_map (fun _ => rfl) _
      rw [hnone, List.nil_append, List.filter_cons_of_neg (by simp [hbare])]

/-- Besides keys below the prefixes only entries of edges go whose bare prefix is no key. -/
theorem of_mem_removedKeys_regular {k : Bytes}
    (hk : k ∈ Step.removedKeys (edges.flatMap (s.edgeSteps c))) :
    (∃ e ∈ edges, Key.edgePrefix s.vidLen s.place.part e <+: k) ∨
      ∃ e ∈ s.regular c edges, k ∈ s.indexKeys .normal c e := by
  obtain ⟨e, he, hk⟩ := Step.mem_removedKeys_flatMap.1 hk
  cases hbare : c.get? (Key.edgePrefix s.vidLen s.place.part e) with
  | none =>
    rcases of_mem_removedKeys_edgeSteps (hplan e he) hk with hpre | hkey
    · exact .inl ⟨e, he, hpre⟩
    · exact .inr ⟨e, mem_regular.2 ⟨he, hbare⟩, hkey⟩
  | some v =>
    rw [edgeSteps_of_bare hbare, Step.removedKeys_map fun _ => rfl] at hk
    obtain ⟨⟨k, v⟩, hmem, rfl⟩ := List.mem_map.1 hk
    exact .inl ⟨e, he, (s.mem_found.1 hmem).2⟩

end Steps

/-- The contents after a delete of edges that succeeds, next to those before it, whatever these
are.  The numbers are those under which the log has gained entries. -/
structure Maintained (s : Scene) (edges : List Edge) (c c' : Contents) (numbers : List UInt64) :
    Prop where
  /-- Nothing is left below the prefix of a requested edge. -/
  cleared : ∀ e ∈ edges, ∀ k, Key.edgePrefix s.vidLen s.place.part e <+: k → c'.get? k = none
  /-- Unless its bare prefix is a key, an edge has lost its entries in the indexes in the normal
  state. -/
  unindexed : ∀ e ∈ edges, c.get? (Key.edgePrefix s.vidLen s.place.part e) = none →
    ∀ k ∈ s.indexKeys .normal c e, c'.get? k = none
  /-- The log has gained the entries in the indexes under rebuild, with the same exception. -/
  logged : numbers.Nodup → List.Forall₂ (fun x key =>
    c'.get? (Key.deferral s.place.part x) = some key) numbers
      ((s.regular c edges).flatMap (s.indexKeys .rebuilding c))
  /-- The entries of an edge whose bare prefix is a key are as before, as far as no other edge has
  them too. -/
  bypassed : ∀ e ∈ edges, c.get? (Key.edgePrefix s.vidLen s.place.part e) ≠ none →
    ∀ state, ∀ k ∈ s.indexKeys state c e,
      (∀ e' ∈ s.regular c edges, k ∉ s.indexKeys .normal c e') → c'.get? k = c.get? k

/-- What the operations of the steps lead to. -/
theorem maintained_of_steps (hplan : ∀ e ∈ edges, (s.keysPlan e (s.found c e)).error = none)
    {numbers : List UInt64}
    (hlen : numbers.length = (Step.deferredKeys (edges.flatMap (s.edgeSteps c))).length) :
    s.Maintained edges c
      ((c.without (Step.removedKeys (edges.flatMap (s.edgeSteps c)))).withLog s.place.part
        (numbers.zip (Step.deferredKeys (edges.flatMap (s.edgeSteps c))))) numbers := by
  -- keys of edges and of indexes are no keys of the log
  have hview : ∀ {k : Bytes} {tag}, k.head? = some tag → tag ≠ Key.operationTag →
      ((c.without (Step.removedKeys (edges.flatMap (s.edgeSteps c)))).withLog s.place.part
          (numbers.zip (Step.deferredKeys (edges.flatMap (s.edgeSteps c))))).get? k
        = if k ∈ Step.removedKeys (edges.flatMap (s.edgeSteps c)) then none else c.get? k :=
    fun hk htag => Contents.get?_without_withLog fun x _ =>
      Key.ne_deferral_of_head? (by simp [hk, htag]) _ _
  refine ⟨?_, ?_, ?_, ?_⟩
  · intro e he k hpre
    rw [hview (Key.head?_of_edgePrefix hpre) (by decide)]
    cases hk : c.get? k with
    | none => simp
    | some v =>
      have hremoved := mem_removedKeys_of_prefix hplan he hk hpre
      rw [if_pos hremoved]
  · intro e he hbare k hk
    rw [hview (head?_of_mem_indexKeys hk) (by decide),
      if_pos (mem_removedKeys_of_normal hplan he hbare hk)]
  · intro hdistinct
    rw [← deferredKeys_regular hplan]
    exact Contents.forall₂_withLog _ _ hlen hdistinct
  · intro e he hbare state k hk hother
    rw [hview (head?_of_mem_indexKeys hk) (by decide), if_neg]
    intro hmem
    rcases of_mem_removedKeys_regular hplan hmem with ⟨e', -, hpre⟩ | ⟨e', he', hk'⟩
    · have htag := (Key.head?_of_edgePrefix hpre).symm.trans (head?_of_mem_indexKeys hk)
      simp [Key.edgeTag, Key.indexTag] at htag
    · exact hother e' he' hk'

end Scene

namespace Node

/-- **Index entries go with the records, but for edges whose bare prefix is a key.**  The contents
before may be any, and so may the other keys below the prefixes be.  For each requested edge whose
bare prefix is no key the entries of the record go or are deferred; where the bare prefix is a key,
they are left behind. -/
theorem entries_go_with_records {n : Node} {r : DeleteRequest} {part : PartId}
    {edges : List Edge} {vidLen : Nat} {indexes : List Index} {c : Contents}
    (hheld : n.store.held = none)
    (hvidLen : n.catalog.vidLen r.space = .ok vidLen)
    (hindexes : (n.indexCatalog.getD n.catalog).edgeIndexes r.space = .ok indexes)
    (hsome : indexes ≠ [])
    (hpart : (part, edges) ∈ r.parts.entries)
    (hc : n.store.contents ⟨r.space, part⟩ = .ok c)
    (hcode : (n.process r).2.codeOf? n.requests.length part = some .succeeded) :
    ∃ c' numbers, (n.process r).2.store.contents ⟨r.space, part⟩ = .ok c' ∧
      numbers.Sublist (n.drawnUntil (n.process r).2) ∧
      Scene.Maintained ⟨n.catalog, n.markers, indexes, ⟨r.space, part⟩, vidLen, n.inflight + 1⟩
        edges c c' numbers := by
  obtain ⟨ts, hturns⟩ := exists_turns hvidLen hindexes
  obtain ⟨_, _, hvidLen', hindexes', -, -, hat⟩ := atTurn_of_mem hheld hturns hpart
  obtain rfl := Except.ok.inj (hvidLen.symm.trans hvidLen')
  obtain rfl := Except.ok.inj (hindexes.symm.trans hindexes')
  have hsome : indexes.isEmpty = false := by simpa using hsome
  have hbefore : (n.reached r (· < part)).store.contents ⟨r.space, part⟩ = .ok c :=
    Store.contents_eq_ok_iff.2 (hat.before.trans (Store.contents_eq_ok_iff.1 hc))
  have hcode := hat.code.symm.trans hcode
  obtain ⟨hplan, -, -⟩ := contents_work hat.held hat.listed hat.silent hsome hbefore hcode
  have hleaves := leaves_of_ends hat rfl (ends_of_succeeded hat.held hat.listed hat.silent hcode)
  rw [removedIn_of_contents hsome hbefore, deferredIn_of_contents hsome hbefore, stepsOf,
    hat.scene] at hleaves
  rw [hat.scene] at hplan
  exact ⟨_, _, hleaves.contents hc, hleaves.drawn,
    Scene.maintained_of_steps (fun e he => (hplan e he).2) hleaves.length⟩

/-! ### A partition with a bare prefix -/

/-- An edge parallel to the one of the sample. -/
def parallelEdge : Edge := ⟨[1], 5, 1, [2]⟩

/-- A partition with two edges and their entries, and the bare prefix of the first of them. -/
def foreignContents : Contents :=
  ((sampleContents.insert (Key.record 1 3 parallelEdge) [1, 0, 0]).insert
    (Key.entry 1 3 7 parallelEdge []) []).insert (Key.edgePrefix 1 3 sampleEdge) []

/-- A node with that partition, whose index is in the normal state. -/
def foreign : Node :=
  { sample with
    markers := IndexMarkers.empty
    store := { Store.empty with parts := OrderedMap.empty.insert ⟨1, 3⟩ foreignContents } }

/-- A request for both edges. -/
def foreignRequest : DeleteRequest :=
  (DeleteRequest.empty 1).addPart 3 [sampleEdge, parallelEdge]

theorem entries_go_with_records_foreign :
    (foreign.process foreignRequest).2.codeOf? 0 3 = some .succeeded ∧
      ∃ c' numbers, (foreign.process foreignRequest).2.store.contents ⟨1, 3⟩ = .ok c' ∧
        numbers.Sublist (foreign.drawnUntil (foreign.process foreignRequest).2) ∧
        Scene.Maintained ⟨foreign.catalog, foreign.markers, [⟨7, 5, "since", []⟩], ⟨1, 3⟩, 1, 1⟩
          [sampleEdge, parallelEdge] foreignContents c' numbers := by
  have hcode : (foreign.process foreignRequest).2.codeOf? 0 3 = some .succeeded := by
    decide +kernel
  exact ⟨hcode, entries_go_with_records rfl rfl rfl (by simp) (by decide) rfl hcode⟩

/-- The delete succeeds and the records of both edges go, but one of the entries stays. -/
theorem bare_prefix_leaves_entry :
    (foreign.process foreignRequest).2.codeOf? 0 3 = some .succeeded ∧
      (∀ e ∈ [sampleEdge, parallelEdge],
        foreignContents.get? (Key.record 1 3 e) = some [1, 0, 0] ∧
        Key.entry 1 3 7 e [] ∈ Scene.indexKeys
          ⟨foreign.catalog, foreign.markers, [⟨7, 5, "since", []⟩], ⟨1, 3⟩, 1, 1⟩ .normal
          foreignContents e ∧
        (foreign.process foreignRequest).2.store.get? ⟨1, 3⟩ (Key.record 1 3 e) = none) ∧
      (foreign.process foreignRequest).2.store.get? ⟨1, 3⟩ (Key.entry 1 3 7 parallelEdge [])
        = none ∧
      (foreign.process foreignRequest).2.store.get? ⟨1, 3⟩ (Key.entry 1 3 7 sampleEdge [])
        = some [] := by
  decide +kernel

end Node

end EdgeDeletion
