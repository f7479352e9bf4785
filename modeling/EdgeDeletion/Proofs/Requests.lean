/-
Requests as the turns of their partitions.

A request whose space is not known fails for all its partitions at once.  Any other one
is worked on partition by partition, in ascending order.

* `process_eq` — a request is the turns of its partitions in order;
* `quiet_process` — the same without what is noted before the first of them.
-/
import EdgeDeletion.Proofs.Turns

namespace EdgeDeletion

/-- The partitions of a request ascend, as its map keeps them. -/
theorem DeleteRequest.ascending (r : DeleteRequest) :
    r.parts.entries.Pairwise fun p p' => p.1 < p'.1 :=
  r.parts.ordered.imp fun h => UInt32.lt_iff_toNat_lt.2 (of_decide_eq_true h)

namespace Node

variable (n : Node)

/-- The turns of the partitions of a request, if its space is known. -/
def turns (r : DeleteRequest) : Except DeleteError (List Turn) :=
  match n.catalog.vidLen r.space with
  | .error source => .error (.widthUnavailable r.space source.toStorageError)
  | .ok vidLen =>
    match (n.indexCatalog.getD n.catalog).edgeIndexes r.space with
    | .error source => .error (.indexesUnavailable r.space source.toStorageError)
    | .ok indexes =>
      .ok (r.parts.entries.map fun p =>
        ⟨n.requests.length, ⟨r.space, p.1⟩, vidLen, indexes, p.2⟩)

/-- The node when a request has arrived. -/
def arrived (r : DeleteRequest) : Node :=
  { n with requests := n.requests ++ [(Collector.start r.parts.size n.now).1] }

/-- What is noted before the turns of a request, or before its failure as a whole. -/
def preface (r : DeleteRequest) : List Event :=
  .call (.vidLen r.space) ::
    match n.catalog.vidLen r.space with
    | .error source =>
      [.log (.widthUnavailable r.space (.widthUnavailable r.space source.toStorageError))]
    | .ok _ =>
      .call (.indexes r.space) ::
        match (n.indexCatalog.getD n.catalog).edgeIndexes r.space with
        | .error source =>
          [.log (.indexesUnavailable r.space (.indexesUnavailable r.space source.toStorageError))]
        | .ok _ => []

/-- The width and the indexes of the space are asked for, and a failure to get them is logged. -/
theorem of_mem_preface {r : DeleteRequest} {e : Event} (h : e ∈ n.preface r) :
    e = .call (.vidLen r.space) ∨ e = .call (.indexes r.space) ∨
      ∃ error, e = .log (.widthUnavailable r.space error) ∨
        e = .log (.indexesUnavailable r.space error) := by
  rw [preface] at h
  rcases List.mem_cons.1 h with rfl | h
  · exact .inl rfl
  · cases hvidLen : n.catalog.vidLen r.space with
    | error source =>
      simp only [hvidLen] at h
      exact .inr (.inr ⟨_, .inl (List.mem_singleton.1 h)⟩)
    | ok vidLen =>
      simp only [hvidLen] at h
      rcases List.mem_cons.1 h with rfl | h
      · exact .inr (.inl rfl)
      · cases hindexes : (n.indexCatalog.getD n.catalog).edgeIndexes r.space with
        | error source =>
          simp only [hindexes] at h
          exact .inr (.inr ⟨_, .inr (List.mem_singleton.1 h)⟩)
        | ok indexes => simp [hindexes] at h

/-- The node when a request has arrived and its space was looked up. -/
def opened (r : DeleteRequest) : Node :=
  ({ n.emit (.signal .call) with
    requests := n.requests ++ [(Collector.start r.parts.size n.now).1] }.emitAll
      (Collector.start r.parts.size n.now).2).emitAll (n.preface r)

def workAll (ts : List Turn) : Node := ts.foldl work n

theorem workAll_quiet (ts : List Turn) : (n.quiet.workAll ts).quiet = (n.workAll ts).quiet := by
  induction ts generalizing n with
  | nil => rfl
  | cons t ts ih =>
    show ((n.quiet.work t).workAll ts).quiet = ((n.work t).workAll ts).quiet
    rw [← ih (n.quiet.work t), work_quiet, ih]

theorem failAll_quiet (request : Nat) (parts : List PartId) (code : ResultCode) :
    (n.quiet.failAll request parts code).quiet = (n.failAll request parts code).quiet := by
  induction parts generalizing n with
  | nil => rfl
  | cons part parts ih =>
    show ((n.quiet.report request part code).failAll request parts code).quiet
      = ((n.report request part code).failAll request parts code).quiet
    rw [← ih (n.quiet.report request part code), report_quiet, ih]

theorem foldl_turns (request : Nat) (space : SpaceId) (vidLen : Nat) (indexes : List Index)
    (parts : List (PartId × List Edge)) :
    parts.foldl
        (fun n (part, edges) =>
          if indexes.isEmpty then n.deletePlain request ⟨space, part⟩ vidLen edges
          else n.deleteIndexed request ⟨space, part⟩ vidLen indexes edges) n
      = n.workAll (parts.map fun p => ⟨request, ⟨space, p.1⟩, vidLen, indexes, p.2⟩) := by
  rw [workAll, List.foldl_map]
  rfl

theorem opened_eq (r : DeleteRequest) : ∃ m : Node,
    n.opened r = m.emitAll (n.preface r) ∧ m.catalog = n.catalog ∧
      m.indexCatalog = n.indexCatalog ∧ (n.process r).2 = m.dispatch n.requests.length r := by
  obtain ⟨m, hm⟩ : ∃ m, m = { n.emit (.signal .call) with
      requests := n.requests ++ [(Collector.start r.parts.size n.now).1] }.emitAll
        (Collector.start r.parts.size n.now).2 := ⟨_, rfl⟩
  have hquiet : m.quiet = (n.arrived r).quiet := by
    rw [hm, quiet_emitAll]
    rfl
  refine ⟨m, by rw [opened, hm], ?_, ?_, by rw [hm]; rfl⟩
  · exact (congrArg Node.catalog hquiet).trans rfl
  · exact (congrArg Node.indexCatalog hquiet).trans rfl

/-- A request is one failure for all its partitions, or the turns of its partitions. -/
theorem process_eq (r : DeleteRequest) :
    (n.process r).2 =
      match n.turns r with
      | .error e => (n.opened r).failAll n.requests.length r.parts.keys e.code
      | .ok ts => (n.opened r).workAll ts := by
  obtain ⟨m, hopened, hcatalog, hindexCatalog, hprocess⟩ := n.opened_eq r
  have hvidLen : (m.emit (.call (.vidLen r.space))).catalog.vidLen r.space
      = n.catalog.vidLen r.space := congrArg (·.vidLen r.space) hcatalog
  rw [hprocess, hopened, dispatch, turns, preface]
  simp only [hvidLen]
  cases n.catalog.vidLen r.space with
  | error source => rfl
  | ok vidLen =>
    have hindexes : ∀ e e', (((m.emit e).emit e').indexCatalog.getD ((m.emit e).emit e').catalog)
        = n.indexCatalog.getD n.catalog := by
      intro e e'
      show m.indexCatalog.getD m.catalog = _
      rw [hcatalog, hindexCatalog]
    simp only [hindexes]
    cases (n.indexCatalog.getD n.catalog).edgeIndexes r.space with
    | error source => rfl
    | ok indexes =>
      simp only
      rw [foldl_turns]
      rfl

theorem quiet_opened (r : DeleteRequest) : (n.opened r).quiet = (n.arrived r).quiet := by
  rw [opened, quiet_emitAll, quiet_emitAll]
  rfl

/-- What is noted before the turns left out, a request begins when it has arrived. -/
theorem quiet_process (r : DeleteRequest) :
    (n.process r).2.quiet =
      (match n.turns r with
      | .error e => (n.arrived r).failAll n.requests.length r.parts.keys e.code
      | .ok ts => (n.arrived r).workAll ts).quiet := by
  rw [process_eq]
  cases n.turns r with
  | error e =>
    simp only
    rw [← failAll_quiet, quiet_opened, failAll_quiet]
  | ok ts =>
    simp only
    rw [← workAll_quiet, quiet_opened, workAll_quiet]

end Node

end EdgeDeletion
