/-
Edges are deleted as a set, and deleting them again changes nothing.

An edge that is named again is looked up again in the same contents, and the order of the
edges decides which failure is met first and which removal is deferred under which number.
None of this is left in the end:

* `Calm.succeeded_iff` — where nothing else fails, a turn succeeds just if none of its edges
  fails by itself;
* `mem_removedIn_iff`, `mem_deferredIn_iff` — what goes and what is deferred, edge by edge;
* `cleared_work` — what a turn that succeeds leaves to the next one for the same edges;
* `deletes_as_sets` — requests for the same set of edges, and the same request again.
-/
import EdgeDeletion.Proofs.Lifecycle

namespace EdgeDeletion

universe u

/-! ### Plans for edges without keys -/

/-- Nothing changes when keys go that are not there. -/
theorem Contents.without_of_absent {c : Contents} {keys : List Bytes}
    (h : ∀ k ∈ keys, c.get? k = none) : c.without keys = c := by
  refine OrderedMap.ext fun k => ?_
  rw [get?_without]
  by_cases hk : k ∈ keys
  · rw [if_pos hk, h k hk]
  · rw [if_neg hk]

namespace Scene

variable {s : Scene} {c : Contents} {edge : Edge} {edges : List Edge}

/-- Without indexes an edge can only have the wrong width. -/
theorem edgeError_of_plain (h : s.indexes.isEmpty = true) :
    s.edgeError (.ok c) edge = widthError? s.vidLen edge := by
  have hplan : s.keysPlan edge (s.found c edge)
      = .ofSteps (bareSteps s.vidLen ((s.found c edge).map Prod.fst)) :=
    keysPlan_of_unindexed (by simp [List.isEmpty_iff.1 h]) _
  simp only [edgeError, hplan]
  exact Option.or_none

theorem edgeSteps_of_none (h : ∀ k, Key.edgePrefix s.vidLen s.place.part edge <+: k →
    c.get? k = none) : s.edgeSteps c edge = [] := by
  have hempty : s.edgeSteps c edge = s.edgeSteps .empty edge := edgeSteps_congr h
  exact hempty

variable {τ : Type u} {store : Store τ}

/-- A plan for some edge that does not fail has met no failure of a scan. -/
theorem scanFaults_of_plan (h : (s.plan store edges).2.error = none) :
    edges = [] ∨ store.scanFaults.get? s.place = none := by
  cases edges with
  | nil => exact .inl rfl
  | cons edge edges =>
    obtain ⟨-, hall, -⟩ := plan_of_ok h
    have hedge := hall edge (List.mem_cons_self ..)
    obtain ⟨hwidth, -⟩ := edgePlan_of_ok hedge
    cases hfault : store.scanFaults.get? s.place with
    | none => exact .inr rfl
    | some code =>
      simp [edgePlan, widthError?, hwidth, Store.scan, hfault, Plan.andThen, Plan.note,
        Plan.fail] at hedge

/-- The plan for edges without keys is empty. -/
theorem plan_of_none (hc : store.contents s.place = .ok c)
    (hscan : edges = [] ∨ store.scanFaults.get? s.place = none)
    (hwide : ∀ e ∈ edges, e.hasWidth s.vidLen = true)
    (hnone : ∀ e ∈ edges, ∀ k, Key.edgePrefix s.vidLen s.place.part e <+: k → c.get? k = none) :
    (s.plan store edges).2.error = none ∧ (s.plan store edges).2.steps = [] := by
  have herror : (s.plan store edges).2.error = none := by
    rcases hscan with rfl | hscan
    · rfl
    · rw [(plan_error hscan edges).2, hc, List.findSome?_eq_none_iff]
      exact fun e he => edgeError_of_none (hwide e he) (hnone e he)
  refine ⟨herror, ?_⟩
  rw [(plan_steps hc herror).2, List.flatMap_eq_nil_iff]
  exact fun e he => edgeSteps_of_none (hnone e he)

/-- The keys that go for an edge. -/
def goneFor (s : Scene) (c : Contents) (edge : Edge) : List Bytes :=
  if s.indexes.isEmpty then [Key.record s.vidLen s.place.part edge]
  else Step.removedKeys (s.edgeSteps c edge)

/-- The index keys whose removal is deferred for an edge. -/
def deferredFor (s : Scene) (c : Contents) (edge : Edge) : List Bytes :=
  if s.indexes.isEmpty then [] else Step.deferredKeys (s.edgeSteps c edge)

/-- The steps for edges of a space with indexes fit into memory. -/
def Fits (s : Scene) (c : Contents) (edges : List Edge) : Prop :=
  s.indexes.isEmpty = false →
    11 + ((edges.flatMap (s.edgeSteps c)).map Step.weight).sum < UInt64.size

end Scene

namespace Node

open Store (AgreeAt)

variable {n m : Node} {t : Turn} {c : Contents} {k : Bytes}

/-! ### What a turn makes of a set of edges -/

/-- What goes in a turn goes for one of its edges. -/
theorem mem_removedIn_iff : k ∈ n.removedIn t ↔
    ∃ e ∈ t.edges, k ∈ (n.scene t).goneFor (n.store.stored t.place) e := by
  have hindexes : (n.scene t).indexes = t.indexes := rfl
  simp only [removedIn, Scene.goneFor, hindexes]
  cases t.indexes.isEmpty with
  | true =>
    simp only [if_true, List.mem_map, List.mem_singleton, eq_comm]
    rfl
  | false => exact Step.mem_removedKeys_flatMap

/-- What is deferred in a turn is deferred for one of its edges. -/
theorem mem_deferredIn_iff : k ∈ n.deferredIn t ↔
    ∃ e ∈ t.edges, k ∈ (n.scene t).deferredFor (n.store.stored t.place) e := by
  have hindexes : (n.scene t).indexes = t.indexes := rfl
  simp only [deferredIn, Scene.deferredFor, hindexes]
  cases t.indexes.isEmpty with
  | true => simp
  | false =>
    simp only [Bool.false_eq_true, if_false]
    rw [stepsOf, Step.deferredKeys_flatMap, List.mem_flatMap]

/-- The turn of a calm partition is refused for the first edge that fails by itself, and if there
is none, its write can be read. -/
theorem Calm.verdict_cases (h : n.Calm t.place t.edges c) (hfits : (n.scene t).Fits c t.edges) :
    (∃ e, t.edges.findSome? ((n.scene t).edgeError (.ok c)) = some e ∧ n.verdict t = .refused e) ∨
      (t.edges.findSome? ((n.scene t).edgeError (.ok c)) = none ∧
        ∃ change edges hold ops, n.verdict t = .write change edges hold ∧
          Store.opsOf change = .ok ops) := by
  by_cases hindexes : t.indexes.isEmpty = true
  · have herrors : (n.scene t).edgeError (.ok c) = Scene.widthError? t.vidLen :=
      funext fun e => Scene.edgeError_of_plain (s := n.scene t) hindexes
    rw [herrors]
    cases hwidth : t.edges.findSome? (Scene.widthError? t.vidLen) with
    | some e => exact .inl ⟨e, rfl, by rw [verdict, if_pos hindexes, hwidth]⟩
    | none => exact .inr ⟨rfl, _, _, _, _, verdict_plain hindexes hwidth, rfl⟩
  · have hindexes : t.indexes.isEmpty = false := by simpa using hindexes
    have herrors : (n.planOf t).error = t.edges.findSome? ((n.scene t).edgeError (.ok c)) := by
      rw [planOf, (Scene.plan_error (s := n.scene t) h.scans t.edges).2]
      exact congrArg (t.edges.findSome? <| (n.scene t).edgeError ·) h.contents
    cases herror : (n.planOf t).error with
    | some e => exact .inl ⟨e, herrors ▸ herror, by simp [verdict, hindexes, herror]⟩
    | none =>
      obtain ⟨p, hclaim⟩ := exists_claim h.free
      obtain ⟨edges, hold, hverdict⟩ := verdict_of_claim hindexes herror hclaim
      have hsteps : (n.planOf t).steps = t.edges.flatMap ((n.scene t).edgeSteps c) :=
        (Scene.plan_steps (s := n.scene t) h.contents herror).2
      have hfits := hfits hindexes
      rw [← hsteps] at hfits
      exact .inr ⟨herrors ▸ herror, _, edges, hold, _, hverdict,
        Step.opsOf_toOps t.place.part n.sequencer hfits⟩

/-- The turn of a calm partition succeeds just if none of its edges fails by itself. -/
theorem Calm.succeeded_iff (h : n.Calm t.place t.edges c) (hready : n.Ready t)
    (hfits : (n.scene t).Fits c t.edges) :
    (n.work t).codeOf? t.request t.place.part = some .succeeded ↔
      ∀ e ∈ t.edges, (n.scene t).edgeError (.ok c) e = none := by
  rw [← List.findSome?_eq_none_iff]
  rcases h.verdict_cases hfits with
    ⟨e, herror, hverdict⟩ | ⟨hnone, change, edges, hold, ops, hverdict, hops⟩
  · rw [herror, (ends_of_refused hready hverdict).code]
    simpa using e.code_ne_succeeded
  · rw [hnone, (h.ends_of_write hready hverdict hops).code]
    exact ⟨fun _ => rfl, fun _ => rfl⟩

/-! ### The turn after one that has succeeded -/

/-- What a turn that succeeds leaves to the next one for the same edges: the partition is here and
no failure is ahead, and nothing is left of the edges. -/
structure Cleared (n : Node) (t : Turn) (c : Contents) : Prop where
  contents : n.store.contents t.place = .ok c
  writes : n.store.writeFaults.get? t.place = none
  wide : ∀ e ∈ t.edges, e.hasWidth t.vidLen = true
  records : ∀ e ∈ t.edges, c.get? (Key.record t.vidLen t.place.part e) = none
  /-- Where there are indexes, scans are made and claims are raised. -/
  scans : t.indexes.isEmpty = false → t.edges = [] ∨ n.store.scanFaults.get? t.place = none
  free : t.indexes.isEmpty = false → ∀ e ∈ t.edges, n.locks.isLocked ⟨t.place, e⟩ = false
  below : t.indexes.isEmpty = false → ∀ e ∈ t.edges, ∀ k,
    Key.edgePrefix t.vidLen t.place.part e <+: k → c.get? k = none

/-- The number of the request does not matter. -/
theorem Cleared.of_agree (h : n.Cleared t c) (hstore : AgreeAt t.place n.store m.store)
    (hlocks : m.locks = n.locks) (request : Nat) : m.Cleared { t with request := request } c where
  contents := hstore.contents.symm.trans h.contents
  writes := hstore.writeFault.symm.trans h.writes
  wide := h.wide
  records := h.records
  scans hindexes := (h.scans hindexes).imp_right hstore.scanFault.symm.trans
  free hindexes := hlocks ▸ h.free hindexes
  below := h.below

/-- What is known of the edges of a turn whose write is submitted. -/
theorem wide_of_write {change : Change} {edges : Nat} {hold : Option Hold}
    (h : n.verdict t = .write change edges hold) : ∀ e ∈ t.edges, e.hasWidth t.vidLen = true := by
  rcases of_verdict_write h with ⟨-, hwidth, -⟩ | ⟨-, herror, -⟩
  · intro e he
    simpa [Scene.widthError?] using List.findSome?_eq_none_iff.1 hwidth e he
  · exact fun e he => ((Scene.plan_stored herror).1 e he).1

/-- The record of an edge goes in a turn whose write is submitted, and with indexes all keys below
its prefix do. -/
theorem mem_removedIn_of_write {change : Change} {edges : Nat} {hold : Option Hold}
    (h : n.verdict t = .write change edges hold) {e : Edge} (he : e ∈ t.edges) {v : Bytes}
    (hk : (n.store.stored t.place).get? k = some v)
    (hpre : Key.edgePrefix t.vidLen t.place.part e <+: k)
    (hplain : t.indexes.isEmpty = true → k = Key.record t.vidLen t.place.part e) :
    k ∈ n.removedIn t := by
  rw [removedIn]
  rcases of_verdict_write h with ⟨hindexes, -⟩ | ⟨hindexes, herror, -⟩
  · rw [if_pos hindexes, hplain hindexes]
    exact List.mem_map_of_mem he
  · rw [hindexes]
    exact Scene.mem_removedKeys_of_prefix (s := n.scene t)
      (fun e he => ((Scene.plan_stored herror).1 e he).2) he hk hpre

/-- No key of an edge is left that was to go, since the log gains other keys. -/
theorem get?_left_of_write {change : Change} {edges : Nat} {hold : Option Hold}
    (h : n.verdict t = .write change edges hold) (hc : n.store.contents t.place = .ok c)
    {numbers : List UInt64} {keys : List Bytes} {e : Edge} (he : e ∈ t.edges)
    (hpre : Key.edgePrefix t.vidLen t.place.part e <+: k)
    (hplain : t.indexes.isEmpty = true → k = Key.record t.vidLen t.place.part e) :
    ((c.without (n.removedIn t)).withLog t.place.part (numbers.zip keys)).get? k = none := by
  have htag : k.head? ≠ some Key.operationTag := by
    rw [Key.head?_of_edgePrefix hpre]
    decide
  rw [Contents.get?_without_withLog fun x _ => Key.ne_deferral_of_head? htag _ x]
  cases hk : c.get? k with
  | none => exact ite_self _
  | some v =>
    rw [← Store.stored_of_contents hc] at hk
    exact if_pos (mem_removedIn_of_write h he hk hpre hplain)

/-- A turn that succeeds has found its partition, and no failure is ahead of the next write. -/
theorem found_of_succeeded (hheld : n.store.held = none) (hlen : t.request < n.requests.length)
    (hnone : n.codeOf? t.request t.place.part = none)
    (hcode : (n.work t).codeOf? t.request t.place.part = some .succeeded) :
    ∃ c, n.store.contents t.place = .ok c ∧ (n.work t).store.writeFaults.get? t.place = none ∧
      (n.work t).store.scanFaults = (n.planned t).store.scanFaults := by
  obtain ⟨change, edges, hold, -, hok, hstore⟩ := write_of_succeeded hheld hlen hnone hcode
  obtain ⟨c, ops, hc, hops, -⟩ := Store.apply_of_ok hok
  have hparts : (n.planned t).store.counted.parts = n.store.parts := n.planned_parts t
  cases Store.outcome_iff.1 hok with
  | done hfault =>
    rw [Store.apply_of_batch hfault (Store.contents_eq_ok_iff.2 hc) hops] at hstore
    rw [hparts] at hc
    rw [hstore]
    exact ⟨c, Store.contents_eq_ok_iff.2 hc, hfault, rfl⟩

/-- A turn that succeeds has cleared its edges. -/
theorem cleared_work (hheld : n.store.held = none) (hlen : t.request < n.requests.length)
    (hnone : n.codeOf? t.request t.place.part = none)
    (hcode : (n.work t).codeOf? t.request t.place.part = some .succeeded) :
    ∃ c, (n.work t).Cleared t c := by
  obtain ⟨change, edges, hold, hverdict, -⟩ := write_of_succeeded hheld hlen hnone hcode
  obtain ⟨before, hbefore, hwrites, hscans⟩ := found_of_succeeded hheld hlen hnone hcode
  have hafter := (ends_of_succeeded hheld hlen hnone hcode).parts
  rw [Store.contents_eq_ok_iff.1 hbefore] at hafter
  refine ⟨_, Store.contents_eq_ok_iff.2 hafter, hwrites, wide_of_write hverdict, ?_, ?_, ?_, ?_⟩
  · exact fun e he =>
      get?_left_of_write hverdict hbefore he (Key.edgePrefix_prefix_record ..) fun _ => rfl
  · intro hindexes
    rcases of_verdict_write hverdict with ⟨hplain, -⟩ | ⟨-, herror, -⟩
    · simp [hindexes] at hplain
    · have hplan : (n.planned t).store = n.store := by
        rw [planned, hindexes]
        exact (Scene.plan_of_ok herror).1
      rw [hscans, hplan]
      exact Scene.scanFaults_of_plan herror
  · intro hindexes e he
    rw [(frame_work hheld t).locks]
    rcases of_verdict_write hverdict with ⟨hplain, -⟩ | ⟨-, -, -, _, -, hfree⟩
    · simp [hindexes] at hplain
    · exact hfree _ (LockTable.mem_distinct.2 (List.mem_map_of_mem he))
  · exact fun hindexes e he k hpre =>
      get?_left_of_write hverdict hbefore he hpre fun hplain => by simp [hindexes] at hplain

/-- The turn then succeeds again, and it changes nothing. -/
theorem Cleared.work (h : n.Cleared t c) (hready : n.Ready t) :
    (n.work t).codeOf? t.request t.place.part = some .succeeded ∧
      (n.work t).store.contents t.place = .ok c := by
  obtain ⟨removed, habsent, hends⟩ : ∃ removed, (∀ k ∈ removed, c.get? k = none) ∧
      n.Ends t .succeeded removed [] := by
    by_cases hindexes : t.indexes.isEmpty = true
    · -- the records are removed once more
      have hwidth : t.edges.findSome? (Scene.widthError? t.vidLen) = none := by
        rw [List.findSome?_eq_none_iff]
        exact fun e he => if_pos (h.wide e he)
      have hends := ends_of_readable hready h.contents h.writes (verdict_plain hindexes hwidth) rfl
      rw [removedIn, deferredIn, if_pos hindexes, if_pos hindexes] at hends
      exact ⟨_, List.forall_mem_map.2 h.records, hends⟩
    · -- the plan is empty
      have hindexes : t.indexes.isEmpty = false := by simpa using hindexes
      obtain ⟨herror, hsteps⟩ := Scene.plan_of_none (s := n.scene t) h.contents (h.scans hindexes)
        h.wide (h.below hindexes)
      have hsteps : (n.planOf t).steps = [] := hsteps
      obtain ⟨p, hclaim⟩ := exists_claim (h.free hindexes)
      obtain ⟨edges, hold, hverdict⟩ := verdict_of_claim hindexes herror hclaim
      have hops : Store.opsOf (.batch (Batch.encode (n.opsOf t).1)) = .ok [] := by
        rw [opsOf, hsteps]
        exact Step.opsOf_toOps t.place.part n.sequencer (by decide)
      have hends := ends_of_readable hready h.contents h.writes hverdict hops
      have hnone : n.stepsOf t c = [] :=
        (Scene.plan_steps (s := n.scene t) h.contents herror).2.symm.trans hsteps
      rw [removedIn_of_contents hindexes h.contents, deferredIn_of_contents hindexes h.contents,
        hnone] at hends
      exact ⟨[], fun _ hk => absurd hk List.not_mem_nil, hends⟩
  refine ⟨hends.code, Store.contents_eq_ok_iff.2 ?_⟩
  rw [hends.parts, Store.contents_eq_ok_iff.1 h.contents, Option.map_some,
    Contents.without_of_absent habsent]
  simp

/-! ### Requests -/

variable {r : DeleteRequest} {part : PartId} {edges : List Edge}

/-- A turn leaves the catalogs and the markers alone. -/
theorem setUpAs_work_of_not_held (hheld : n.store.held = none) (t : Turn) :
    n.SetUpAs (n.work t) := by
  have hframe := frame_work hheld t
  refine ⟨hframe.catalog, ?_, hframe.markers⟩
  obtain ⟨faults, j, hplanned⟩ := n.planned_eq t
  have hlook : (n.planned t).indexCatalog = n.indexCatalog := by rw [hplanned]
  have hreport : ∀ (m : Node) (code : ResultCode),
      (m.report t.request t.place.part code).indexCatalog = m.indexCatalog := fun m code =>
    (congrArg Node.indexCatalog (m.quiet_report t.request t.place.part code)).trans rfl
  refine (congrArg Node.indexCatalog (quiet_work_of_not_held hheld)).trans ?_
  cases n.verdict t with
  | refused e => exact (hreport ..).trans hlook
  | write change edges hold =>
    by_cases hlost : n.losesNext = true
    · simp only [if_pos hlost]
      exact hlook
    · simp only [if_neg hlost]
      exact (hreport ..).trans hlook

theorem setUpAs_workAll_of_not_held (hheld : n.store.held = none) (ts : List Turn) :
    n.SetUpAs (n.workAll ts) := by
  induction ts generalizing n with
  | nil => exact ⟨rfl, rfl, rfl⟩
  | cons t ts ih =>
    exact (setUpAs_work_of_not_held hheld t).trans (ih ((frame_work hheld t).held.trans hheld))

theorem setUpAs_process {ts : List Turn} (hheld : n.store.held = none)
    (hturns : n.turns r = .ok ts) : n.SetUpAs (n.process r).2 := by
  have hquiet := n.quiet_process r
  rw [hturns] at hquiet
  have harrived : n.SetUpAs (n.arrived r) := ⟨rfl, rfl, rfl⟩
  have hturned := setUpAs_workAll_of_not_held (n := n.arrived r) hheld ts
  exact (harrived.trans hturned).trans (setUpAs_of_quiet hquiet)

/-- After a request a partition looks as it did after its turn, and if no write was to get lost
then, none is. -/
theorem agree_after {ts front rest : List Turn} (hheld : n.store.held = none)
    (hturns : n.turns r = .ok ts) (hts : ts = front ++ t :: rest)
    (hne : ∀ t' ∈ rest, t'.place ≠ t.place) :
    AgreeAt t.place (((n.arrived r).workAll front).work t).store (n.process r).2.store ∧
      ((((n.arrived r).workAll front).work t).losesNext = false →
        (n.process r).2.losesNext = false) := by
  have hquiet : (n.process r).2.quiet
      = ((((n.arrived r).workAll front).work t).workAll rest).quiet := by
    rw [quiet_process, hturns, hts]
    simp only [workAll, List.foldl_append, List.foldl_cons]
  have hfront := (frame_workAll (n := n.arrived r) hheld front).held.trans hheld
  have hturn := (frame_work hfront t).held.trans hfront
  have hstore : (n.process r).2.store
      = ((((n.arrived r).workAll front).work t).workAll rest).store :=
    (congrArg Node.store hquiet).trans rfl
  have hlost : (n.process r).2.losesNext
      = ((((n.arrived r).workAll front).work t).workAll rest).losesNext :=
    (congrArg Node.losesNext hquiet).trans rfl
  rw [hstore, hlost]
  exact ⟨agreeAt_workAll hturn hne, losesNext_workAll hturn⟩

/-- Where a request succeeds in a partition, it leaves it cleared, on a node that loses no write. -/
theorem cleared_process {ts : List Turn} (hheld : n.store.held = none)
    (hturns : n.turns r = .ok ts) (hpart : (part, edges) ∈ r.parts.entries)
    (hcode : (n.process r).2.codeOf? n.requests.length part = some .succeeded) :
    ∃ vidLen indexes c, n.catalog.vidLen r.space = .ok vidLen ∧
      (n.indexCatalog.getD n.catalog).edgeIndexes r.space = .ok indexes ∧
      (n.process r).2.store.held = none ∧ (n.process r).2.losesNext = false ∧
      (n.process r).2.Cleared ⟨n.requests.length, ⟨r.space, part⟩, vidLen, indexes, edges⟩ c := by
  obtain ⟨front, rest, vidLen, indexes, hts, hvidLen, hindexes, hbelow, habove⟩ :=
    turns_split hturns hpart
  obtain ⟨-, hlt, -⟩ := reached_split hturns hts rfl hbelow habove
  obtain ⟨_, _, hvidLen', hindexes', -, -, hat⟩ := atTurn_of_mem hheld hturns hpart
  obtain rfl := Except.ok.inj (hvidLen.symm.trans hvidLen')
  obtain rfl := Except.ok.inj (hindexes.symm.trans hindexes')
  rw [hlt] at hat
  obtain ⟨-, hafter⟩ := frame_process hheld hturns hts
  obtain ⟨hstore, hlost⟩ := agree_after hheld hturns hts fun t ht hplace =>
    UInt32.ne_of_lt (habove t ht) (congrArg Place.part hplace).symm
  have hcode := hat.code.symm.trans hcode
  obtain ⟨c, hcleared⟩ := cleared_work hat.held hat.listed hat.silent hcode
  obtain ⟨_, _, _, hverdict, -⟩ := write_of_succeeded hat.held hat.listed hat.silent hcode
  refine ⟨vidLen, indexes, c, hvidLen, hindexes,
    hafter.held.trans ((frame_work hat.held _).held.trans hat.held), hlost ?_,
    hcleared.of_agree hstore hafter.locks _⟩
  -- a setting that a write gets lost is used up by this turn at the latest
  rw [losesNext_work_eq hat.held, hverdict]

/-- A request that has succeeded in a partition succeeds there again, and it changes nothing. -/
theorem process_again (hheld : n.store.held = none) (hpart : (part, edges) ∈ r.parts.entries)
    (hcode : (n.process r).2.codeOf? n.requests.length part = some .succeeded) :
    ∃ c, (n.process r).2.store.contents ⟨r.space, part⟩ = .ok c ∧
      ((n.process r).2.process r).2.codeOf? (n.process r).2.requests.length part
        = some .succeeded ∧
      ((n.process r).2.process r).2.store.contents ⟨r.space, part⟩ = .ok c := by
  cases hturns : n.turns r with
  | error e =>
    have herror := codeOf?_process_of_error hturns (List.mem_map_of_mem hpart)
    exact absurd (Option.some.inj (herror.symm.trans hcode)) e.code_ne_succeeded
  | ok ts =>
    obtain ⟨vidLen, indexes, c, hvidLen, hindexes, hheld', hkeeps, hcleared⟩ :=
      cleared_process hheld hturns hpart hcode
    have hsetUp := setUpAs_process hheld hturns
    rw [← hsetUp.catalog] at hvidLen hindexes
    rw [← hsetUp.indexCatalog] at hindexes
    generalize (n.process r).2 = m at *
    obtain ⟨ts', hturns'⟩ := exists_turns hvidLen hindexes
    obtain ⟨_, _, hvidLen', hindexes', -, -, hat⟩ := atTurn_of_mem hheld' hturns' hpart
    obtain rfl := Except.ok.inj (hvidLen.symm.trans hvidLen')
    obtain rfl := Except.ok.inj (hindexes.symm.trans hindexes')
    obtain ⟨hlocks, hlost, hagree⟩ := agree_reached hheld' hkeeps hturns' part
    obtain ⟨hagain, hsame⟩ := (hcleared.of_agree hagree hlocks m.requests.length).work
      ⟨hat.held, hlost, hat.listed, hat.silent⟩
    exact ⟨c, hcleared.contents, hat.code.trans hagain, Store.contents_eq_ok_iff.2
      (hat.after.trans (Store.contents_eq_ok_iff.1 hsame))⟩

/-- A request names edges of a partition and nothing else stands in its way: the partition is calm,
the numbers that are drawn are new, and the steps fit into memory. -/
structure Unhindered (n : Node) (r : DeleteRequest) (part : PartId) (edges : List Edge)
    (c : Contents) : Prop where
  listed : (part, edges) ∈ r.parts.entries
  calm : n.Calm ⟨r.space, part⟩ edges c
  anew : n.DrawsAnew r part c
  fits : ∀ vidLen indexes, n.catalog.vidLen r.space = .ok vidLen →
    (n.indexCatalog.getD n.catalog).edgeIndexes r.space = .ok indexes →
    Scene.Fits ⟨n.catalog, n.markers, indexes, ⟨r.space, part⟩, vidLen, n.inflight + 1⟩ c edges

/-- The log has gained what the request has put off. -/
theorem Leaves.values_newDeferrals {removed keys : List Bytes} {numbers : List UInt64}
    (h : n.Leaves r part removed keys numbers) (hanew : n.DrawsAnew r part c) {v : Bytes} :
    v ∈ (c.newDeferrals ((c.without removed).withLog part (numbers.zip keys))).map Prod.snd ↔
      v ∈ keys :=
  Contents.mem_values_newDeferrals h.length ((h.ascending hanew).imp UInt64.ne_of_lt)
    (h.unused hanew)

/-- What becomes of a partition by a request that nothing else stands in the way of, edge by edge:
whether it succeeds, and if so, what it removes and which removals it defers. -/
theorem Unhindered.course (h : n.Unhindered r part edges c) (hheld : n.store.held = none)
    (hkeeps : n.losesNext = false) {vidLen : Nat} {indexes : List Index}
    (hvidLen : n.catalog.vidLen r.space = .ok vidLen)
    (hindexes : (n.indexCatalog.getD n.catalog).edgeIndexes r.space = .ok indexes) {s : Scene}
    (hs : s = ⟨n.catalog, n.markers, indexes, ⟨r.space, part⟩, vidLen, n.inflight + 1⟩) :
    ((n.process r).2.codeOf? n.requests.length part = some .succeeded ↔
        ∀ e ∈ edges, s.edgeError (.ok c) e = none) ∧
      ((n.process r).2.codeOf? n.requests.length part = some .succeeded →
        ∃ c', (n.process r).2.store.contents ⟨r.space, part⟩ = .ok c' ∧
          (∀ k, k.head? ≠ some Key.operationTag →
            c'.get? k = if ∃ e ∈ edges, k ∈ s.goneFor c e then none else c.get? k) ∧
          ∀ v, v ∈ (c.newDeferrals c').map Prod.snd ↔ ∃ e ∈ edges, v ∈ s.deferredFor c e) := by
  subst hs
  obtain ⟨m, hat, hready, hcalm⟩ := h.calm.atTurn hheld hkeeps hvidLen hindexes h.listed
  have hscene := hat.scene
  have hstored : m.store.stored ⟨r.space, part⟩ = c := Store.stored_of_contents hcalm.contents
  have hfits := h.fits vidLen indexes hvidLen hindexes
  have hsucceeded := hcalm.succeeded_iff hready (by rw [hscene]; exact hfits)
  rw [hscene, ← hat.code] at hsucceeded
  refine ⟨hsucceeded, fun hcode => ?_⟩
  have hends := ends_of_succeeded hat.held hat.listed hat.silent (hat.code.symm.trans hcode)
  have hleaves := leaves_of_ends hat rfl hends
  refine ⟨_, hleaves.contents h.calm.contents, fun k htag => ?_, fun v => ?_⟩
  · rw [Contents.get?_without_withLog fun x _ => Key.ne_deferral_of_head? htag part x]
    simp only [mem_removedIn_iff, hscene, hstored]
    rfl
  · rw [hleaves.values_newDeferrals h.anew, mem_deferredIn_iff, hscene, hstored]
    rfl

/-- **Edges are deleted as a set, and deleting them again changes nothing.**  On a node that holds
no writes back and is not set to lose one, two requests name the same edges of a partition, in any
order and any number of times, and nothing stands in their way but failures of the edges.  Then
one of them succeeds just if the other one does, and the contents that they leave agree up to the
log, which gains the same deferred removals.  Whenever a request has succeeded in a partition, it
succeeds there again right afterwards, and the contents stay the same. -/
theorem deletes_as_sets {n : Node} (hheld : n.store.held = none) :
    (∀ {r r' : DeleteRequest} {part : PartId} {edges edges' : List Edge} {c : Contents},
      n.losesNext = false → r'.space = r.space → (∀ e, e ∈ edges ↔ e ∈ edges') →
      n.Unhindered r part edges c → n.Unhindered r' part edges' c →
      ((n.process r).2.codeOf? n.requests.length part = some .succeeded ↔
        (n.process r').2.codeOf? n.requests.length part = some .succeeded) ∧
      ((n.process r).2.codeOf? n.requests.length part = some .succeeded →
        ∃ c₁ c₂, (n.process r).2.store.contents ⟨r.space, part⟩ = .ok c₁ ∧
          (n.process r').2.store.contents ⟨r.space, part⟩ = .ok c₂ ∧
          (∀ k, k.head? ≠ some Key.operationTag → c₁.get? k = c₂.get? k) ∧
          ∀ v, v ∈ (c.newDeferrals c₁).map Prod.snd ↔ v ∈ (c.newDeferrals c₂).map Prod.snd)) ∧
    ∀ {r : DeleteRequest} {part : PartId} {edges : List Edge}, (part, edges) ∈ r.parts.entries →
      (n.process r).2.codeOf? n.requests.length part = some .succeeded →
      ∃ c, (n.process r).2.store.contents ⟨r.space, part⟩ = .ok c ∧
        ((n.process r).2.process r).2.codeOf? (n.process r).2.requests.length part
          = some .succeeded ∧
        ((n.process r).2.process r).2.store.contents ⟨r.space, part⟩ = .ok c := by
  refine ⟨fun {r r' part edges edges' c} hkeeps hspace hedges h h' => ?_,
    fun hpart hcode => process_again hheld hpart hcode⟩
  obtain ⟨space, parts⟩ := r'
  obtain rfl : space = r.space := hspace
  cases hturns : n.turns r with
  | error e =>
    -- the space is not known, and both requests fail as a whole
    have hturns' : n.turns ⟨r.space, parts⟩ = .error e :=
      turns_of_error hturns (setUpAs_of_quiet rfl) rfl
    have hcode := codeOf?_process_of_error hturns (List.mem_map_of_mem h.listed)
    have hcode' := codeOf?_process_of_error hturns' (List.mem_map_of_mem h'.listed)
    have hfails : ¬some e.code = some ResultCode.succeeded := fun hsome =>
      e.code_ne_succeeded (Option.some.inj hsome)
    rw [hcode, hcode']
    exact ⟨Iff.rfl, fun hsome => absurd hsome hfails⟩
  | ok ts =>
    obtain ⟨vidLen, indexes, hvidLen, hindexes, -⟩ := eq_of_turns hturns
    obtain ⟨hiff, hafter⟩ := h.course hheld hkeeps hvidLen hindexes rfl
    obtain ⟨hiff', hafter'⟩ := h'.course hheld hkeeps hvidLen hindexes rfl
    have hsame := hiff.trans ((forall_congr' fun e => imp_congr_left (hedges e)).trans hiff'.symm)
    refine ⟨hsame, fun hcode => ?_⟩
    obtain ⟨c₁, hc₁, hgone, hnew⟩ := hafter hcode
    obtain ⟨c₂, hc₂, hgone', hnew'⟩ := hafter' (hsame.1 hcode)
    refine ⟨c₁, c₂, hc₁, hc₂, fun k htag => ?_, fun v => ?_⟩
    · rw [hgone k htag, hgone' k htag]
      simp only [hedges]
    · rw [hnew, hnew']
      simp only [hedges]

/-- A request that names the edge of the sample once. -/
def singleRequest : DeleteRequest := (DeleteRequest.empty 1).addPart 3 [sampleEdge]

/-- The edge of the sample named twice and once, and twice again. -/
theorem deletes_as_sets_sample :
    (sample.process sampleRequest).2.codeOf? 0 3 = some .succeeded ∧
      ((sample.process sampleRequest).2.codeOf? 0 3 = some .succeeded ↔
        (sample.process singleRequest).2.codeOf? 0 3 = some .succeeded) ∧
      (∃ c₁ c₂, (sample.process sampleRequest).2.store.contents ⟨1, 3⟩ = .ok c₁ ∧
        (sample.process singleRequest).2.store.contents ⟨1, 3⟩ = .ok c₂ ∧
        (∀ k, k.head? ≠ some Key.operationTag → c₁.get? k = c₂.get? k) ∧
        ∀ v, v ∈ (sampleContents.newDeferrals c₁).map Prod.snd ↔
          v ∈ (sampleContents.newDeferrals c₂).map Prod.snd) ∧
      ∃ c, (sample.process sampleRequest).2.store.contents ⟨1, 3⟩ = .ok c ∧
        ((sample.process sampleRequest).2.process sampleRequest).2.codeOf?
          (sample.process sampleRequest).2.requests.length 3 = some .succeeded ∧
        ((sample.process sampleRequest).2.process sampleRequest).2.store.contents ⟨1, 3⟩
          = .ok c := by
  have hcode : (sample.process sampleRequest).2.codeOf? 0 3 = some .succeeded := by decide +kernel
  have hfits : ∀ edges, (edges = [sampleEdge, sampleEdge] ∨ edges = [sampleEdge]) →
      ∀ vidLen indexes, sample.catalog.vidLen 1 = .ok vidLen →
        (sample.indexCatalog.getD sample.catalog).edgeIndexes 1 = .ok indexes →
        Scene.Fits ⟨sample.catalog, sample.markers, indexes, ⟨1, 3⟩, vidLen, 1⟩ sampleContents
          edges := by
    intro edges hedges vidLen indexes hvidLen hindexes
    obtain rfl : 1 = vidLen := Except.ok.inj hvidLen
    obtain rfl : [⟨7, 5, "since", []⟩] = indexes := Except.ok.inj hindexes
    intro _
    rcases hedges with rfl | rfl <;> decide +kernel
  have hanew : sample.DrawsAnew sampleRequest 3 sampleContents :=
    drawsAnew_of_all (by decide +kernel) (by decide +kernel)
  have hanew' : sample.DrawsAnew singleRequest 3 sampleContents :=
    drawsAnew_of_all (by decide +kernel) (by decide +kernel)
  have hfirst : sample.Unhindered sampleRequest 3 [sampleEdge, sampleEdge] sampleContents :=
    ⟨by decide, ⟨rfl, rfl, rfl, by decide⟩, hanew, hfits _ (.inl rfl)⟩
  have hsecond : sample.Unhindered singleRequest 3 [sampleEdge] sampleContents :=
    ⟨by decide, ⟨rfl, rfl, rfl, by decide⟩, hanew', hfits _ (.inr rfl)⟩
  have hheld : sample.store.held = none := rfl
  have hspace : singleRequest.space = sampleRequest.space := rfl
  obtain ⟨hsame, hafter⟩ := (deletes_as_sets hheld).1 rfl hspace (by simp) hfirst hsecond
  exact ⟨hcode, hsame, hafter hcode, (deletes_as_sets hheld).2 hfirst.listed hcode⟩

end Node

end EdgeDeletion
