/-
Indexes in the normal state and under rebuild.

Plans that are made under different markers settle to the same steps.  So a request comes
to the same code, and once the log has been caught up with, to the same contents:

* `Contents.caughtUp_withLog` — what is left when the new lines of the log are worked off;
* `verdicts_match` — turns under different markers;
* `lifecycles_settle_alike` — requests under different markers.
-/
import EdgeDeletion.Proofs.MarkedPlans

namespace EdgeDeletion

/-! ### Catching up with the log -/

namespace Contents

/-- The deferred removals that the log has gained. -/
def newDeferrals (before after : Contents) : List (Bytes × Bytes) :=
  after.entries.filter fun line => Key.isDeferral line.1 && !before.contains line.1

/-- The contents once the new deferred removals were made and their lines were dropped. -/
def caughtUp (before after : Contents) : Contents :=
  after.without ((newDeferrals before after).map Prod.snd ++ (newDeferrals before after).map Prod.fst)

theorem mem_newDeferrals {before after : Contents} {k v : Bytes} :
    (k, v) ∈ newDeferrals before after ↔
      after.get? k = some v ∧ Key.isDeferral k = true ∧ before.get? k = none := by
  rw [newDeferrals, List.mem_filter, OrderedMap.get?_eq_some_iff, OrderedMap.contains]
  simp

section WithLog

variable {c : Contents} {part : PartId} {removed keys : List Bytes} {numbers : List UInt64}
  (hlen : numbers.length = keys.length) (hdistinct : numbers.Nodup)
  (hunused : ∀ x ∈ numbers, c.get? (Key.deferral part x) = none)
include hlen hdistinct hunused

/-- The new lines of the log are those under the numbers. -/
theorem mem_newDeferrals_withLog {k v : Bytes} :
    (k, v) ∈ newDeferrals c ((c.without removed).withLog part (numbers.zip keys)) ↔
      ∃ x, (x, v) ∈ numbers.zip keys ∧ k = Key.deferral part x := by
  have hlines : ∀ {x key}, (x, key) ∈ numbers.zip keys →
      ((c.without removed).withLog part (numbers.zip keys)).get? (Key.deferral part x) = some key :=
    (List.forall₂_iff_zip.1 (forall₂_withLog (c.without removed) part hlen hdistinct)).2
  rw [mem_newDeferrals]
  constructor
  · rintro ⟨hv, -, hnone⟩
    by_cases hk : ∃ x ∈ numbers, k = Key.deferral part x
    · obtain ⟨x, hx, rfl⟩ := hk
      rw [← List.map_fst_zip (Nat.le_of_eq hlen)] at hx
      obtain ⟨⟨x, key⟩, hline, rfl⟩ := List.mem_map.1 hx
      obtain rfl := Option.some.inj ((hlines hline).symm.trans hv)
      exact ⟨x, hline, rfl⟩
    · rw [get?_without_withLog fun x hx h => hk ⟨x, hx, h⟩, hnone, ite_self] at hv
      exact absurd hv nofun
  · rintro ⟨x, hline, rfl⟩
    exact ⟨hlines hline, Key.isDeferral_deferral part x, hunused x (List.of_mem_zip hline).1⟩

/-- The new lines of the log hold the deferred keys. -/
theorem mem_values_newDeferrals {v : Bytes} :
    v ∈ (newDeferrals c ((c.without removed).withLog part (numbers.zip keys))).map Prod.snd ↔
      v ∈ keys := by
  have hnew : ∀ {k v},
      (k, v) ∈ newDeferrals c ((c.without removed).withLog part (numbers.zip keys)) ↔
        ∃ x, (x, v) ∈ numbers.zip keys ∧ k = Key.deferral part x :=
    mem_newDeferrals_withLog hlen hdistinct hunused
  constructor
  · intro hv
    obtain ⟨⟨k, v⟩, hline, rfl⟩ := List.mem_map.1 hv
    obtain ⟨x, hline, -⟩ := hnew.1 hline
    exact (List.of_mem_zip hline).2
  · intro hv
    rw [← List.map_snd_zip (Nat.le_of_eq hlen.symm)] at hv
    obtain ⟨⟨x, v⟩, hline, rfl⟩ := List.mem_map.1 hv
    exact List.mem_map.2 ⟨(_, v), hnew.2 ⟨x, hline, rfl⟩, rfl⟩

/-- Catching up with the log undoes what was added to it, and the deferred keys go. -/
theorem caughtUp_withLog : caughtUp c ((c.without removed).withLog part (numbers.zip keys))
    = c.without (removed ++ keys) := by
  have hnew : ∀ {k v},
      (k, v) ∈ newDeferrals c ((c.without removed).withLog part (numbers.zip keys)) ↔
        ∃ x, (x, v) ∈ numbers.zip keys ∧ k = Key.deferral part x :=
    mem_newDeferrals_withLog hlen hdistinct hunused
  have hkeys : ∀ v,
      v ∈ (newDeferrals c ((c.without removed).withLog part (numbers.zip keys))).map Prod.snd ↔
        v ∈ keys := fun v => mem_values_newDeferrals hlen hdistinct hunused
  have hview : ∀ k, (∀ x ∈ numbers, k ≠ Key.deferral part x) →
      ((c.without removed).withLog part (numbers.zip keys)).get? k
        = if k ∈ removed then none else c.get? k :=
    fun k => get?_without_withLog
  generalize (c.without removed).withLog part (numbers.zip keys) = after at hnew hkeys hview
  refine OrderedMap.ext fun k => ?_
  rw [caughtUp, get?_without, get?_without]
  simp only [List.mem_append, hkeys]
  by_cases hk : ∃ x ∈ numbers, k = Key.deferral part x
  · -- a new line is dropped again, and before there was none
    obtain ⟨x, hx, rfl⟩ := hk
    rw [hunused x hx, if_pos, ite_self]
    rw [← List.map_fst_zip (Nat.le_of_eq hlen)] at hx
    obtain ⟨⟨x, key⟩, hline, rfl⟩ := List.mem_map.1 hx
    exact .inr (List.mem_map.2 ⟨(_, key), hnew.2 ⟨x, hline, rfl⟩, rfl⟩)
  · have hold : k ∉ (newDeferrals c after).map Prod.fst := by
      intro hmem
      obtain ⟨⟨k, v⟩, hline, rfl⟩ := List.mem_map.1 hmem
      obtain ⟨x, hx, hkey⟩ := hnew.1 hline
      exact hk ⟨x, (List.of_mem_zip hx).1, hkey⟩
    rw [hview k fun x hx h => hk ⟨x, hx, h⟩]
    by_cases hgone : k ∈ removed
    · simp [hgone]
    · simp [hgone, hold]

end WithLog

end Contents

/-! ### Turns under different markers -/

namespace Node

open Store (AgreeAt)

variable {n m : Node} {t : Turn}

/-- The nodes look the same to a turn but for the markers, and no index is locked on any of them. -/
structure AgreeButMarkers (t : Turn) (n m : Node) : Prop where
  scene : m.scene t = (n.scene t).marked m.markers
  unlocked : n.markers.Unlocked
  unlocked' : m.markers.Unlocked
  locks : n.locks = m.locks
  store : AgreeAt t.place n.store m.store

theorem AgreeButMarkers.plans (h : AgreeButMarkers t n m) :
    (n.planOf t).Settles (m.planOf t) ∧
      AgreeAt t.place ((n.scene t).plan n.store t.edges).1 ((m.scene t).plan m.store t.edges).1 := by
  obtain ⟨hstore, hsettles⟩ :=
    Scene.plan_settles (s := n.scene t) h.unlocked h.unlocked' n.store t.edges
  obtain ⟨hplan, hafter⟩ := Scene.plan_agree (s := m.scene t) h.store t.edges
  rw [← h.scene] at hstore hsettles
  rw [planOf, planOf, ← hplan, hstore]
  exact ⟨hsettles, hafter⟩

theorem AgreeButMarkers.planned (h : AgreeButMarkers t n m) :
    AgreeAt t.place (n.planned t).store (m.planned t).store := by
  rw [Node.planned, Node.planned]
  by_cases hindexes : t.indexes.isEmpty = true
  · rw [if_pos hindexes, if_pos hindexes]
    exact h.store
  · rw [if_neg hindexes, if_neg hindexes]
    exact h.plans.2

/-- What is removed or deferred is the same. -/
theorem AgreeButMarkers.settled (h : AgreeButMarkers t n m) (k : Bytes) :
    (k ∈ n.removedIn t ∨ k ∈ n.deferredIn t) ↔ (k ∈ m.removedIn t ∨ k ∈ m.deferredIn t) := by
  rw [removedIn, removedIn, deferredIn, deferredIn, ← h.store.stored]
  by_cases hindexes : t.indexes.isEmpty = true
  · simp only [if_pos hindexes]
  · simp only [if_neg hindexes]
    rw [← Step.mem_removedKeys_settled, ← Step.mem_removedKeys_settled, stepsOf, stepsOf, h.scene,
      List.map_flatMap, List.map_flatMap,
      List.flatMap_congr fun e _ => Scene.edgeSteps_settles (s := n.scene t) h.unlocked h.unlocked'
        (n.store.stored t.place) e]

/-- Just entries of requested edges are deferred. -/
theorem isEntry_of_mem_deferredIn {change : Change} {edges : Nat} {hold : Option Hold}
    (hverdict : n.verdict t = .write change edges hold) {k : Bytes} (hk : k ∈ n.deferredIn t) :
    ∃ e ∈ t.edges, (n.scene t).IsEntry (n.store.stored t.place) e k := by
  rw [deferredIn] at hk
  rcases of_verdict_write hverdict with ⟨hindexes, -⟩ | ⟨hindexes, herror, -⟩
  · simp [hindexes] at hk
  · rw [hindexes] at hk
    obtain ⟨hplan, -⟩ := Scene.plan_stored herror
    obtain ⟨e, he, hkey⟩ := Scene.of_mem_deferredKeys (fun e he => (hplan e he).2) hk
    exact ⟨e, he, Scene.isEntry_of_mem_indexKeys hkey⟩

/-- Both turns are refused with the same failure, or both come to a write, which can be read if
the steps are not too many. -/
theorem AgreeButMarkers.verdicts_match (h : AgreeButMarkers t n m) :
    (∃ e, n.verdict t = .refused e ∧ m.verdict t = .refused e) ∨
      ∃ change edges hold change' edges' hold', n.verdict t = .write change edges hold ∧
        m.verdict t = .write change' edges' hold' ∧
        ((t.indexes.isEmpty = false →
            11 + ((n.stepsOf t (n.store.stored t.place)).map Step.weight).sum < UInt64.size) →
          (∃ ops, Store.opsOf change = .ok ops) ∧ ∃ ops, Store.opsOf change' = .ok ops) := by
  by_cases hindexes : t.indexes.isEmpty = true
  · rcases sameVerdict_of_plain n m hindexes t.request with ⟨e, hverdict, hverdict'⟩ |
      ⟨change, edges, hold, change', edges', hold', hverdict, hverdict', -, -, hops⟩
    · exact .inl ⟨e, hverdict, hverdict'⟩
    · rcases of_verdict_write hverdict with ⟨-, -, rfl, -⟩ | ⟨hindexed, -⟩
      · exact .inr ⟨_, edges, hold, change', edges', hold', hverdict, hverdict',
          fun _ => ⟨⟨_, rfl⟩, hops.1 ⟨_, rfl⟩⟩⟩
      · simp [hindexes] at hindexed
  · have hindexes : t.indexes.isEmpty = false := by simpa using hindexes
    obtain ⟨hsettles, -⟩ := h.plans
    cases herror : (n.planOf t).error with
    | some e =>
      refine .inl ⟨e, ?_, ?_⟩
      · simp [verdict, hindexes, herror]
      · simp [verdict, hindexes, ← hsettles.error, herror]
    | none =>
      cases hclaim : n.locks.claim t.ids with
      | error edge =>
        refine .inl ⟨.conflict edge, ?_, ?_⟩
        · simp [verdict, hindexes, herror, hclaim]
        · simp [verdict, hindexes, ← hsettles.error, herror, ← h.locks, hclaim]
      | ok p =>
        obtain ⟨edges, hold, hverdict⟩ := verdict_of_claim hindexes herror hclaim
        obtain ⟨edges', hold', hverdict'⟩ := verdict_of_claim (n := m) hindexes
          (hsettles.error ▸ herror) (h.locks ▸ hclaim)
        refine .inr ⟨_, edges, hold, _, edges', hold', hverdict, hverdict', fun hfits => ?_⟩
        -- both batches weigh the same
        have hweight : ((n.planOf t).steps.map Step.weight).sum
            = ((m.planOf t).steps.map Step.weight).sum := by
          rw [← Step.sum_weight_settled, hsettles.steps, Step.sum_weight_settled]
        have hfits := hfits hindexes
        have hsteps : (n.planOf t).steps = n.stepsOf t (n.store.stored t.place) :=
          (Scene.plan_stored herror).2
        rw [← hsteps] at hfits
        exact ⟨⟨_, Step.opsOf_toOps t.place.part n.sequencer hfits⟩,
          ⟨_, Step.opsOf_toOps t.place.part m.sequencer (hweight ▸ hfits)⟩⟩

/-- A write uses up the setting that it gets lost. -/
theorem losesNext_work_eq (hheld : n.store.held = none) (t : Turn) :
    (n.work t).losesNext =
      match n.verdict t with
      | .refused _ => n.losesNext
      | .write .. => false := by
  have hreport : ∀ (m : Node) (code : ResultCode),
      (m.report t.request t.place.part code).losesNext = m.losesNext := fun m code =>
    (congrArg Node.losesNext (m.quiet_report t.request t.place.part code)).trans rfl
  refine (congrArg Node.losesNext (quiet_work_of_not_held hheld)).trans ?_
  cases n.verdict t with
  | refused e => exact (hreport ..).trans (n.planned_losesNext t)
  | write change edges hold =>
    cases hlost : n.losesNext with
    | true => rfl
    | false => exact (hreport ..).trans ((n.planned_losesNext t).trans hlost)

/-- Where the turns come to a write, they remove the same of all keys but the entries of requested
edges. -/
theorem AgreeButMarkers.removed_iff (h : AgreeButMarkers t n m) {change change' : Change}
    {edges edges' : Nat} {hold hold' : Option Hold}
    (hverdict : n.verdict t = .write change edges hold)
    (hverdict' : m.verdict t = .write change' edges' hold') {k : Bytes}
    (hk : ∀ e ∈ t.edges, ¬(n.scene t).IsEntry (n.store.stored t.place) e k) :
    k ∈ n.removedIn t ↔ k ∈ m.removedIn t := by
  have hdeferred : k ∉ n.deferredIn t := by
    intro hmem
    obtain ⟨e, he, hentry⟩ := isEntry_of_mem_deferredIn hverdict hmem
    exact hk e he hentry
  have hdeferred' : k ∉ m.deferredIn t := by
    intro hmem
    obtain ⟨e, he, hentry⟩ := isEntry_of_mem_deferredIn hverdict' hmem
    rw [h.scene, ← h.store.stored] at hentry
    exact hk e he hentry
  have hsettled := h.settled k
  simpa only [hdeferred, hdeferred', or_false] using hsettled

/-- A turn that has not reported comes to the same code. -/
theorem AgreeButMarkers.code (h : AgreeButMarkers t n m) (hheld : n.store.held = none)
    (hheld' : m.store.held = none) (hlen : t.request < n.requests.length)
    (hlen' : t.request < m.requests.length) (hnone : n.codeOf? t.request t.place.part = none)
    (hnone' : m.codeOf? t.request t.place.part = none) (hlost : n.losesNext = m.losesNext)
    (hfits : t.indexes.isEmpty = false →
      11 + ((n.stepsOf t (n.store.stored t.place)).map Step.weight).sum < UInt64.size) :
    (n.work t).codeOf? t.request t.place.part = (m.work t).codeOf? t.request t.place.part := by
  rw [codeOf?_work hheld hlen hnone, codeOf?_work hheld' hlen' hnone']
  rcases h.verdicts_match with ⟨e, hverdict, hverdict'⟩ |
    ⟨change, edges, hold, change', edges', hold', hverdict, hverdict', hops⟩
  · rw [hverdict, hverdict']
  · obtain ⟨hread, hread'⟩ := hops hfits
    have hcounted := ((Store.agreeAt_counted t.place (n.planned t).store).symm.trans
      h.planned).trans (Store.agreeAt_counted t.place (m.planned t).store)
    have hresult : ((n.planned t).store.counted.apply (t.write change edges hold)).2.result
        = ((m.planned t).store.counted.apply (t.write change' edges' hold')).2.result :=
      hcounted.result (w := t.write change edges hold) rfl ⟨fun _ => hread', fun _ => hread⟩
    simp only [hverdict, hverdict', hlost, hresult]

/-- Turns of different partitions leave both nodes set to lose a write, or none. -/
theorem losesNext_workAll_match {ts : List Turn} (hheld : n.store.held = none)
    (hheld' : m.store.held = none) (hne : ts.Pairwise fun t t' => t.place ≠ t'.place)
    (h : ∀ t ∈ ts, AgreeButMarkers t n m) (hlost : n.losesNext = m.losesNext) :
    (n.workAll ts).losesNext = (m.workAll ts).losesNext := by
  induction ts generalizing n m with
  | nil => exact hlost
  | cons t ts ih =>
    obtain ⟨hfirst, hne⟩ := List.pairwise_cons.1 hne
    have hframe := frame_work hheld t
    have hframe' := frame_work hheld' t
    refine ih (hframe.held.trans hheld) (hframe'.held.trans hheld') hne (fun t' ht' => ?_) ?_
    · have hagree := h t' (List.mem_cons_of_mem _ ht')
      refine ⟨?_, ?_, ?_, ?_, ?_⟩
      · have hscene := hagree.scene
        rw [scene, hframe'.catalog, hframe'.markers, hframe'.inflight, scene, hframe.catalog,
          hframe.markers, hframe.inflight]
        exact hscene
      · rw [hframe.markers]
        exact hagree.unlocked
      · rw [hframe'.markers]
        exact hagree.unlocked'
      · rw [hframe.locks, hframe'.locks]
        exact hagree.locks
      · exact ((agreeAt_work_of_ne hheld (hfirst t' ht')).symm.trans hagree.store).trans
          (agreeAt_work_of_ne hheld' (hfirst t' ht'))
    · rw [losesNext_work_eq hheld, losesNext_work_eq hheld']
      rcases (h t (List.mem_cons_self ..)).verdicts_match with ⟨e, hverdict, hverdict'⟩ |
        ⟨change, edges, hold, change', edges', hold', hverdict, hverdict', -⟩
      · rw [hverdict, hverdict']
        exact hlost
      · rw [hverdict, hverdict']

/-! ### Requests under different markers -/

/-- The node with other markers. -/
def marked (n : Node) (markers : IndexMarkers) : Node := { n with markers := markers }

variable {r : DeleteRequest} {part : PartId} {edges : List Edge} {c : Contents}
  {markers : IndexMarkers}

/-- What a request has put off in a partition goes when the partition catches up with its log. -/
theorem Leaves.caughtUp {removed keys : List Bytes} {numbers : List UInt64}
    (h : n.Leaves r part removed keys numbers) (hanew : n.DrawsAnew r part c) :
    c.caughtUp ((c.without removed).withLog part (numbers.zip keys))
      = c.without (removed ++ keys) :=
  Contents.caughtUp_withLog h.length ((h.ascending hanew).imp UInt64.ne_of_lt)
    (h.unused hanew)

theorem distinct_turns {ts : List Turn} (hturns : n.turns r = .ok ts) :
    ts.Pairwise fun t t' => t.place ≠ t'.place :=
  (turns_ascending hturns).imp fun hlt hplace => UInt32.ne_of_lt hlt (congrArg Place.part hplace)

/-- When its turn comes, a partition finds nodes that look the same but for the markers. -/
theorem agreeButMarkers_reached {ts : List Turn} (hheld : n.store.held = none)
    (hunlocked : n.markers.Unlocked) (hunlocked' : markers.Unlocked)
    (hturns : n.turns r = .ok ts) (hplace : t.place = ⟨r.space, part⟩)
    (hat : AtTurn n r t (n.reached r (· < part)))
    (hat' : AtTurn (n.marked markers) r t ((n.marked markers).reached r (· < part))) :
    AgreeButMarkers t (n.reached r (· < part)) ((n.marked markers).reached r (· < part)) ∧
      (n.reached r (· < part)).losesNext = ((n.marked markers).reached r (· < part)).losesNext := by
  have hheld' : (n.marked markers).store.held = none := hheld
  have hturns' : (n.marked markers).turns r = .ok ts := hturns
  obtain ⟨hlocks, hstore⟩ := agreeAt_reached hheld hturns part
  obtain ⟨hlocks', hstore'⟩ := agreeAt_reached hheld' hturns' part
  have hmarkers : (n.reached r (· < part)).markers = n.markers :=
    congrArg Scene.markers hat.scene
  have hmarkers' : ((n.marked markers).reached r (· < part)).markers = markers :=
    congrArg Scene.markers hat'.scene
  refine ⟨⟨?_, ?_, ?_, hlocks.trans hlocks'.symm, ?_⟩, ?_⟩
  · rw [hat.scene, hat'.scene, hmarkers']
    rfl
  · rw [hmarkers]
    exact hunlocked
  · rw [hmarkers']
    exact hunlocked'
  · rw [hplace]
    exact hstore.symm.trans hstore'
  · rw [reached, reached, hturns, hturns']
    exact losesNext_workAll_match (n := n.arrived r) (m := (n.marked markers).arrived r) hheld hheld'
      ((distinct_turns hturns).filter _)
      (fun t _ => ⟨rfl, hunlocked, hunlocked', rfl, .refl t.place n.store⟩) rfl

/-- **Normal and rebuilding indexes differ only in when an entry goes.**  Two nodes are the same
but for their markers, and no index is locked on any of them.  Then a request comes to the same
code for a partition.  If it succeeds, the contents are the same afterwards, up to the log and the
entries of the requested edges; and once the new deferred removals are made and their lines are
dropped, there is no difference left.  The contents before and the edges may be any, as far as
the steps fit into memory. -/
theorem lifecycles_settle_alike {n : Node} {markers : IndexMarkers} {r : DeleteRequest}
    {part : PartId} {edges : List Edge} {c : Contents}
    (hheld : n.store.held = none)
    (hunlocked : n.markers.Unlocked) (hunlocked' : markers.Unlocked)
    (hpart : (part, edges) ∈ r.parts.entries)
    (hc : n.store.contents ⟨r.space, part⟩ = .ok c)
    (hanew : n.DrawsAnew r part c) (hanew' : (n.marked markers).DrawsAnew r part c)
    (hfits : ∀ vidLen indexes, n.catalog.vidLen r.space = .ok vidLen →
      (n.indexCatalog.getD n.catalog).edgeIndexes r.space = .ok indexes →
      11 + ((edges.flatMap (Scene.edgeSteps
        ⟨n.catalog, n.markers, indexes, ⟨r.space, part⟩, vidLen, n.inflight + 1⟩ c)).map
          Step.weight).sum < UInt64.size) :
    (n.process r).2.codeOf? n.requests.length part
        = ((n.marked markers).process r).2.codeOf? n.requests.length part ∧
      ((n.process r).2.codeOf? n.requests.length part = some .succeeded →
        ∃ vidLen indexes c₁ c₂, n.catalog.vidLen r.space = .ok vidLen ∧
          (n.indexCatalog.getD n.catalog).edgeIndexes r.space = .ok indexes ∧
          (n.process r).2.store.contents ⟨r.space, part⟩ = .ok c₁ ∧
          ((n.marked markers).process r).2.store.contents ⟨r.space, part⟩ = .ok c₂ ∧
          (∀ k, k.head? ≠ some Key.operationTag →
            (∀ e ∈ edges, ¬Scene.IsEntry
              ⟨n.catalog, n.markers, indexes, ⟨r.space, part⟩, vidLen, n.inflight + 1⟩ c e k) →
            c₁.get? k = c₂.get? k) ∧
          c.caughtUp c₁ = c.caughtUp c₂) := by
  cases hturns : n.turns r with
  | error e =>
    have hturns' : (n.marked markers).turns r = .error e := hturns
    have hmem : part ∈ r.parts.keys := List.mem_map_of_mem hpart
    have hcode := codeOf?_process_of_error hturns hmem
    have hcode' := codeOf?_process_of_error hturns' hmem
    exact ⟨hcode.trans hcode'.symm, fun hsucceeded =>
      absurd (Option.some.inj (hcode.symm.trans hsucceeded)) e.code_ne_succeeded⟩
  | ok ts =>
    have hheld' : (n.marked markers).store.held = none := hheld
    have hturns' : (n.marked markers).turns r = .ok ts := hturns
    obtain ⟨vidLen, indexes, hvidLen, hindexes, -, -, hat⟩ := atTurn_of_mem hheld hturns hpart
    obtain ⟨vidLen', indexes', hvidLen', hindexes', -, -, hat'⟩ :=
      atTurn_of_mem hheld' hturns' hpart
    obtain rfl := Except.ok.inj (hvidLen.symm.trans hvidLen')
    obtain rfl := Except.ok.inj (hindexes.symm.trans hindexes')
    -- the turn is the same one on both nodes
    have hrequests : (n.marked markers).requests = n.requests := rfl
    rw [hrequests] at hat'
    obtain ⟨hagree, hlost⟩ :=
      agreeButMarkers_reached hheld hunlocked hunlocked' hturns rfl hat hat'
    have hscene := hat.scene
    have hstored : (n.reached r (· < part)).store.stored ⟨r.space, part⟩ = c :=
      Store.stored_of_contents (Store.contents_eq_ok_iff.2
        (hat.before.trans (Store.contents_eq_ok_iff.1 hc)))
    have hfits := hfits vidLen indexes hvidLen hindexes
    have hsame := hagree.code hat.held hat'.held hat.listed hat'.listed hat.silent hat'.silent hlost
      fun _ => by
        rw [stepsOf, hscene, hstored]
        exact hfits
    refine ⟨(hat.code.trans hsame).trans hat'.code.symm, fun hsucceeded => ?_⟩
    -- both turns have succeeded, and what they have removed and deferred comes to the same
    have hcode := hat.code.symm.trans hsucceeded
    have hcode' := hsame.symm.trans hcode
    have hleaves := leaves_of_ends hat rfl (ends_of_succeeded hat.held hat.listed hat.silent hcode)
    have hleaves' := leaves_of_ends hat' rfl
      (ends_of_succeeded hat'.held hat'.listed hat'.silent hcode')
    obtain ⟨_, _, _, hverdict, -⟩ := write_of_succeeded hat.held hat.listed hat.silent hcode
    obtain ⟨_, _, _, hverdict', -⟩ := write_of_succeeded hat'.held hat'.listed hat'.silent hcode'
    have hremoved := fun k => hagree.removed_iff (k := k) hverdict hverdict'
    have hsettled := hagree.settled
    rw [hscene, hstored] at hremoved
    refine ⟨vidLen, indexes, _, _, hvidLen, hindexes, hleaves.contents hc, hleaves'.contents hc,
      fun k htag hk => ?_, ?_⟩
    · rw [Contents.get?_without_withLog fun x _ => Key.ne_deferral_of_head? htag part x,
        Contents.get?_without_withLog fun x _ => Key.ne_deferral_of_head? htag part x]
      simp only [hremoved k hk]
    · rw [hleaves.caughtUp hanew, hleaves'.caughtUp hanew']
      refine OrderedMap.ext fun k => ?_
      rw [Contents.get?_without, Contents.get?_without]
      simp only [List.mem_append, hsettled k]

/-- The sample, whose index is being rebuilt, next to the same node with the index in the normal
state. -/
theorem lifecycles_settle_alike_sample :
    (sample.process sampleRequest).2.codeOf? 0 3 = some .succeeded ∧
      (sample.process sampleRequest).2.codeOf? 0 3
        = ((sample.marked .empty).process sampleRequest).2.codeOf? 0 3 ∧
      ((sample.process sampleRequest).2.codeOf? 0 3 = some .succeeded →
        ∃ vidLen indexes c₁ c₂, sample.catalog.vidLen 1 = .ok vidLen ∧
          (sample.indexCatalog.getD sample.catalog).edgeIndexes 1 = .ok indexes ∧
          (sample.process sampleRequest).2.store.contents ⟨1, 3⟩ = .ok c₁ ∧
          ((sample.marked .empty).process sampleRequest).2.store.contents ⟨1, 3⟩ = .ok c₂ ∧
          (∀ k, k.head? ≠ some Key.operationTag →
            (∀ e ∈ [sampleEdge, sampleEdge], ¬Scene.IsEntry
              ⟨sample.catalog, sample.markers, indexes, ⟨1, 3⟩, vidLen, 1⟩ sampleContents e k) →
            c₁.get? k = c₂.get? k) ∧
          sampleContents.caughtUp c₁ = sampleContents.caughtUp c₂) := by
  have hcode : (sample.process sampleRequest).2.codeOf? 0 3 = some .succeeded := by decide +kernel
  have hanew : sample.DrawsAnew sampleRequest 3 sampleContents :=
    drawsAnew_of_all (by decide +kernel) (by decide +kernel)
  have hanew' : (sample.marked .empty).DrawsAnew sampleRequest 3 sampleContents :=
    drawsAnew_of_all (by decide +kernel) (by decide +kernel)
  have hunlocked : sample.markers.Unlocked := by
    intro place index
    show (IndexMarkers.empty.setIndex ⟨1, 3⟩ 7 .rebuilding).state place index ≠ .locked
    by_cases h : (place, index) = (⟨1, 3⟩, 7)
    · simp [IndexMarkers.setIndex, IndexMarkers.state, OrderedMap.get?_insert, h]
    · simp [IndexMarkers.setIndex, IndexMarkers.state, OrderedMap.get?_insert, h,
        IndexMarkers.empty, OrderedMap.get?_empty]
  have hunlocked' : IndexMarkers.empty.Unlocked := by
    intro place index
    simp [IndexMarkers.state, IndexMarkers.empty, OrderedMap.get?_empty]
  refine ⟨hcode, lifecycles_settle_alike rfl hunlocked hunlocked' (by decide) rfl hanew hanew' ?_⟩
  intro vidLen indexes hvidLen hindexes
  obtain rfl : 1 = vidLen := Except.ok.inj hvidLen
  obtain rfl : [⟨7, 5, "since", []⟩] = indexes := Except.ok.inj hindexes
  decide +kernel

end Node

end EdgeDeletion
