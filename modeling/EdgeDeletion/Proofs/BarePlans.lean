/-
The plan for edges whose type has no index.

Where no index is on the type of an edge, no row is read and no index state is asked for:
what is planned depends on the keys below the prefix alone, and all of them go.

* `keysPlan_of_unindexed` — the plan for the keys found below the prefix of such an edge;
* `bare_plan` — the plan for a list of such edges has only removals below their prefixes,
  and it notes nothing but its scans;
* `plan_of_sameKeys` — the same plan is made from other values and for other markers.
-/
import EdgeDeletion.Proofs.Replanning
import EdgeDeletion.Proofs.WriteOutcome

namespace EdgeDeletion

universe u

/-! ### Stores with the same keys -/

namespace Contents

variable {c d : Contents}

/-- What operations do to the keys does not depend on the values. -/
theorem keys_apply (h : c.keys = d.keys) (ops : List BatchOp) :
    (c.apply ops).keys = (d.apply ops).keys := by
  induction ops generalizing c d with
  | nil => exact h
  | cons op ops ih =>
    cases op with
    | put key value =>
      refine ih (OrderedMap.keys_eq_of_mem_iff fun k => ?_)
      rw [OrderedMap.mem_keys_insert, OrderedMap.mem_keys_insert, h]
    | remove key =>
      refine ih (OrderedMap.keys_eq_of_mem_iff fun k => ?_)
      rw [OrderedMap.mem_keys_erase, OrderedMap.mem_keys_erase, h]

/-- The keys that a scan finds. -/
theorem map_fst_entriesFrom (c : Contents) (start : Bytes) :
    (Store.entriesFrom c start).map Prod.fst
      = (c.keys.dropWhile fun k => KeyOrder.before k start).takeWhile fun k =>
          Bytes.startsWith k start := by
  rw [Store.entriesFrom, OrderedMap.keys, List.dropWhile_map, List.takeWhile_map]
  rfl

end Contents

namespace Store

variable {τ : Type u}

/-- The stores are the same but for the values in their partitions. -/
structure SameKeys (s s' : Store τ) : Prop where
  keys : ∀ place,
    (s.parts.get? place).map OrderedMap.keys = (s'.parts.get? place).map OrderedMap.keys
  rest : s' = { s with parts := s'.parts }

namespace SameKeys

variable {s s' : Store τ}

theorem writeFaults (h : s.SameKeys s') : s'.writeFaults = s.writeFaults := by rw [h.rest]

theorem scanFaults (h : s.SameKeys s') : s'.scanFaults = s.scanFaults := by rw [h.rest]

theorem held (h : s.SameKeys s') : s'.held = s.held := by rw [h.rest]

/-- A change that has nothing to do with the partitions can be made to both stores. -/
theorem congr (h : s.SameKeys s') {t : Store τ} (hparts : t.parts = s.parts) :
    t.SameKeys { t with parts := s'.parts } :=
  ⟨fun place => by rw [hparts]; exact h.keys place, rfl⟩

/-- The partition is in both stores, with the same keys, or in neither. -/
theorem contents (h : s.SameKeys s') (place : Place) :
    (∃ code, s.contents place = .error code ∧ s'.contents place = .error code) ∨
      ∃ c d : Contents, s.contents place = .ok c ∧ s'.contents place = .ok d ∧
        c.keys = d.keys := by
  have hplaces : s.SamePlaces s' := fun place => by
    simpa using congrArg Option.isSome (h.keys place)
  rcases contents_of_samePlaces hplaces place with hmissing | ⟨hc, hd⟩
  · exact .inl hmissing
  · have hkeys := h.keys place
    rw [contents_eq_ok_iff.1 hc, contents_eq_ok_iff.1 hd] at hkeys
    exact .inr ⟨_, _, hc, hd, Option.some.inj hkeys⟩

/-- A scan finds the same keys. -/
theorem scan (h : s.SameKeys s') (place : Place) (start : Bytes) :
    (s.scan place start).1.SameKeys (s'.scan place start).1 ∧
      (s.scan place start).2.map (·.map Prod.fst)
        = (s'.scan place start).2.map (·.map Prod.fst) := by
  rw [Store.scan, Store.scan, h.scanFaults]
  cases s.scanFaults.get? place with
  | some code =>
    refine ⟨?_, rfl⟩
    rw [h.rest]
    exact h.congr rfl
  | none =>
    refine ⟨h, ?_⟩
    rcases h.contents place with ⟨code, hc, hd⟩ | ⟨c, d, hc, hd, hkeys⟩
    · rw [hc, hd]
    · rw [hc, hd]
      simp only [Except.map, Contents.map_fst_entriesFrom, hkeys]

/-- A write has the same outcome and leaves the same keys. -/
theorem apply (h : s.SameKeys s') (w : Write τ) :
    (s.apply w).1.SameKeys (s'.apply w).1 ∧ (s'.apply w).2 = (s.apply w).2 := by
  cases hfault : s.writeFaults.get? w.place with
  | some code =>
    rw [apply_of_fault hfault, apply_of_fault (h.writeFaults ▸ hfault), h.rest]
    exact ⟨h.congr rfl, rfl⟩
  | none =>
    have hfault' : s'.writeFaults.get? w.place = none := h.writeFaults ▸ hfault
    rcases h.contents w.place with ⟨code, hc, hd⟩ | ⟨c, d, hc, hd, hkeys⟩
    · rw [apply_of_missing hfault hc, apply_of_missing hfault' hd]
      exact ⟨h, rfl⟩
    · cases hops : opsOf w.change with
      | error e =>
        rw [apply_of_no_batch hfault hc hops, apply_of_no_batch hfault' hd hops]
        exact ⟨h, rfl⟩
      | ok ops =>
        rw [apply_of_batch hfault hc hops, apply_of_batch hfault' hd hops]
        refine ⟨⟨fun place => ?_, by rw [h.rest]⟩, rfl⟩
        simp only [OrderedMap.get?_insert]
        by_cases hplace : place = w.place
        · simp only [if_pos hplace, Option.map_some, Contents.keys_apply hkeys ops]
        · simp only [if_neg hplace, h.keys place]

theorem applyAll (h : s.SameKeys s') (ws : List (Write τ)) :
    (s.applyAll ws).1.SameKeys (s'.applyAll ws).1 ∧ (s'.applyAll ws).2 = (s.applyAll ws).2 := by
  induction ws generalizing s s' with
  | nil => exact ⟨h, rfl⟩
  | cons w ws ih =>
    obtain ⟨hfirst, hdone⟩ := h.apply w
    obtain ⟨hrest, hlater⟩ := ih hfirst
    exact ⟨hrest, congrArg₂ List.cons hdone hlater⟩

theorem submit (h : s.SameKeys s') (w : Write τ) :
    (s.submit w).1.SameKeys (s'.submit w).1 ∧ (s'.submit w).2 = (s.submit w).2 := by
  have hcounted : s.counted.SameKeys s'.counted := by
    rw [h.rest]
    exact h.congr rfl
  cases hheld : s.held with
  | none =>
    rw [submit_of_not_held hheld, submit_of_not_held (h.held.trans hheld)]
    obtain ⟨hsame, hdone⟩ := hcounted.apply w
    exact ⟨hsame, by rw [hdone]⟩
  | some queue =>
    rw [submit_of_held hheld, submit_of_held (h.held.trans hheld), hcounted.rest]
    exact ⟨hcounted.congr rfl, rfl⟩

theorem resume (h : s.SameKeys s') :
    s.resume.1.SameKeys s'.resume.1 ∧ s'.resume.2 = s.resume.2 := by
  have hheld : s'.heldWrites = s.heldWrites := congrArg (·.getD []) h.held
  have hopen : ({ s with held := none } : Store τ).SameKeys { s' with held := none } := by
    rw [h.rest]
    exact h.congr rfl
  rw [Store.resume, Store.resume, hheld]
  exact hopen.applyAll s.heldWrites

end SameKeys

end Store

/-! ### Removals -/

namespace Step

/-- Steps without deferrals are removals, and no number is drawn for them. -/
theorem toOps_of_removals {steps : List Step} (h : ∀ step ∈ steps, step.removed?.isSome = true)
    (part : PartId) (q : Sequencer) :
    toOps part q steps = ((removedKeys steps).map .remove, q) := by
  induction steps with
  | nil => rfl
  | cons step steps ih =>
    have ih := ih fun step hstep => h step (List.mem_cons_of_mem _ hstep)
    have hfirst := h step (List.mem_cons_self ..)
    cases step with
    | deferral key => exact absurd hfirst nofun
    | lock | entry | record | version =>
      simp only [toOps, ih]
      rfl

end Step

/-- A plan notes its scans and has only removals of keys that may go. -/
structure Plan.Bare (allowed : Bytes → Prop) (p : Plan) : Prop where
  steps : ∀ step ∈ p.steps, ∃ key, step.removed? = some key ∧ allowed key
  trace : ∀ e ∈ p.trace, ∃ place start, e = .call (.scan place start)

namespace Plan.Bare

variable {allowed allowed' : Bytes → Prop} {p q : Plan}

theorem mono (h : p.Bare allowed) (hsub : ∀ k, allowed k → allowed' k) : p.Bare allowed' where
  steps step hstep := by
    obtain ⟨key, hkey, hallowed⟩ := h.steps step hstep
    exact ⟨key, hkey, hsub key hallowed⟩
  trace := h.trace

theorem andThen (h : p.Bare allowed) (h' : q.Bare allowed) : (p.andThen q).Bare allowed := by
  obtain ⟨steps, trace, error⟩ := p
  cases error with
  | some _ => exact h
  | none =>
    refine ⟨fun step hstep => ?_, fun e he => ?_⟩
    · rcases List.mem_append.1 hstep with hstep | hstep
      · exact h.steps step hstep
      · exact h'.steps step hstep
    · rcases List.mem_append.1 he with he | he
      · exact h.trace e he
      · exact h'.trace e he

theorem fail (allowed : Bytes → Prop) (e : DeleteError) : (Plan.fail e).Bare allowed :=
  ⟨fun _ h => absurd h List.not_mem_nil, fun _ h => absurd h List.not_mem_nil⟩

theorem scan (allowed : Bytes → Prop) (place : Place) (start : Bytes) :
    (Plan.note [.call (.scan place start)]).Bare allowed :=
  ⟨fun _ h => absurd h List.not_mem_nil, fun _ he => ⟨place, start, List.mem_singleton.1 he⟩⟩

/-- The operations of such a plan. -/
theorem toOps (h : p.Bare allowed) (part : PartId) (q : Sequencer) :
    ∃ keys : List Bytes, Step.toOps part q p.steps = (keys.map .remove, q) ∧
      ∀ k ∈ keys, allowed k := by
  refine ⟨Step.removedKeys p.steps, Step.toOps_of_removals (fun step hstep => ?_) part q,
    fun k hk => ?_⟩
  · obtain ⟨key, hkey, -⟩ := h.steps step hstep
    rw [hkey]
    rfl
  · obtain ⟨step, hstep, hk⟩ := List.mem_filterMap.1 hk
    obtain ⟨key, hkey, hallowed⟩ := h.steps step hstep
    obtain rfl := Option.some.inj (hkey.symm.trans hk)
    exact hallowed

end Plan.Bare

/-! ### Plans of edges without indexes -/

namespace Scene

variable {s : Scene} {edge : Edge} {edges : List Edge} {τ : Type u} {store : Store τ}

theorem entriesPlan_of_unindexed (h : ∀ i ∈ s.indexes, i.edgeType ≠ edge.type) (raw : Bytes) :
    s.entriesPlan edge raw = .done := by
  have hnone : s.indexes.filter (fun i => i.edgeType == edge.type) = [] :=
    List.filter_eq_nil_iff.2 fun i hi => by simpa using h i hi
  rw [entriesPlan, hnone]

/-- The steps for the keys below the prefix of an edge if no index is on its type. -/
def bareSteps (vidLen : Nat) (keys : List Bytes) : List Step :=
  (keys.takeWhile fun k => Key.kind vidLen k == .lock).map .lock ++
    match keys.dropWhile fun k => Key.kind vidLen k == .lock with
    | [] => []
    | key :: rest =>
      (if Key.kind vidLen key = .record then .record key else .version key) :: rest.map .version

/-- Only the keys below the prefix of such an edge count. -/
theorem keysPlan_of_unindexed (h : ∀ i ∈ s.indexes, i.edgeType ≠ edge.type)
    (found : List (Bytes × Bytes)) :
    s.keysPlan edge found = .ofSteps (bareSteps s.vidLen (found.map Prod.fst)) := by
  have hlock : ((fun k => Key.kind s.vidLen k == .lock) ∘ Prod.fst : Bytes × Bytes → Bool)
      = fun e => Key.kind s.vidLen e.1 == .lock := rfl
  rw [keysPlan, bareSteps, List.takeWhile_map, List.dropWhile_map, hlock, List.map_map]
  cases hrest : found.dropWhile fun e => Key.kind s.vidLen e.1 == .lock with
  | nil => rfl
  | cons e rest =>
    obtain ⟨key, raw⟩ := e
    by_cases hkey : Key.kind s.vidLen key = .record
    · simp [hkey, entriesPlan_of_unindexed h, Plan.andThen, Plan.ofSteps, Plan.done,
        Function.comp_def]
    · simp [hkey, Plan.andThen, Plan.ofSteps, Function.comp_def]

/-- All keys go. -/
theorem removed_bareSteps {vidLen : Nat} {keys : List Bytes} {step : Step}
    (h : step ∈ bareSteps vidLen keys) : ∃ key, step.removed? = some key ∧ key ∈ keys := by
  have hsplit := List.takeWhile_append_dropWhile
    (p := fun k => Key.kind vidLen k == .lock) (l := keys)
  rw [bareSteps] at h
  rcases List.mem_append.1 h with h | h
  · obtain ⟨key, hkey, rfl⟩ := List.mem_map.1 h
    exact ⟨key, rfl, List.takeWhile_prefix _ |>.mem hkey⟩
  · cases hrest : keys.dropWhile fun k => Key.kind vidLen k == .lock with
    | nil => simp [hrest] at h
    | cons key rest =>
      have hmem : ∀ k ∈ key :: rest, k ∈ keys := fun k hk => by
        rw [← hsplit, hrest]
        exact List.mem_append_right _ hk
      simp only [hrest] at h
      rcases List.mem_cons.1 h with rfl | h
      · refine ⟨key, ?_, hmem key (List.mem_cons_self ..)⟩
        split <;> rfl
      · obtain ⟨k, hk, rfl⟩ := List.mem_map.1 h
        exact ⟨k, rfl, hmem k (List.mem_cons_of_mem _ hk)⟩

/-- The plan for an edge without indexes from what its scan has found. -/
def barePlan (s : Scene) (edge : Edge) (found : Except StoreCode (List Bytes)) : Plan :=
  (Plan.note [.call (.scan s.place (Key.edgePrefix s.vidLen s.place.part edge))]).andThen
    (match found with
    | .error code => .fail (.store code)
    | .ok keys => .ofSteps (bareSteps s.vidLen keys))

theorem edgePlan_of_unindexed (h : ∀ i ∈ s.indexes, i.edgeType ≠ edge.type)
    (hwidth : widthError? s.vidLen edge = none) (store : Store τ) :
    s.edgePlan store edge =
      ((store.scan s.place (Key.edgePrefix s.vidLen s.place.part edge)).1,
        s.barePlan edge ((store.scan s.place (Key.edgePrefix s.vidLen s.place.part edge)).2.map
          (·.map Prod.fst))) := by
  rw [edgePlan, hwidth]
  cases hfound : (store.scan s.place (Key.edgePrefix s.vidLen s.place.part edge)).2 with
  | error code => simp only [hfound, Except.map, barePlan]
  | ok found => simp only [hfound, Except.map, barePlan, keysPlan_of_unindexed h]

theorem prefix_of_scan {place : Place} {start k : Bytes} {found : List (Bytes × Bytes)}
    (hfound : (store.scan place start).2 = .ok found) (hk : k ∈ found.map Prod.fst) :
    start <+: k := by
  obtain ⟨⟨k, v⟩, hmem, rfl⟩ := List.mem_map.1 hk
  rw [Store.scan] at hfound
  cases hfault : store.scanFaults.get? place with
  | some code => simp [hfault] at hfound
  | none =>
    cases hc : store.contents place with
    | error code => simp [hfault, hc, Except.map] at hfound
    | ok c =>
      simp only [hfault, hc, Except.map, Except.ok.injEq] at hfound
      exact (Store.mem_entriesFrom.1 (hfound ▸ hmem)).2

/-- The plan for an edge without indexes has only removals below its prefix. -/
theorem bare_edgePlan (h : ∀ i ∈ s.indexes, i.edgeType ≠ edge.type) (store : Store τ) :
    (s.edgePlan store edge).2.Bare (Key.edgePrefix s.vidLen s.place.part edge <+: ·) := by
  cases hwidth : widthError? s.vidLen edge with
  | some e =>
    rw [edgePlan, hwidth]
    exact .fail _ e
  | none =>
    rw [edgePlan_of_unindexed h hwidth]
    refine Plan.Bare.andThen (.scan ..) ?_
    cases hfound : (store.scan s.place (Key.edgePrefix s.vidLen s.place.part edge)).2 with
    | error code => exact .fail _ _
    | ok found =>
      refine ⟨fun step hstep => ?_, fun _ he => absurd he List.not_mem_nil⟩
      obtain ⟨key, hkey, hmem⟩ := removed_bareSteps hstep
      exact ⟨key, hkey, prefix_of_scan hfound hmem⟩

/-- Whether a key is below the prefix of one of the edges. -/
def Below (s : Scene) (edges : List Edge) (k : Bytes) : Prop :=
  ∃ e ∈ edges, Key.edgePrefix s.vidLen s.place.part e <+: k

theorem plan_cons (s : Scene) (store : Store τ) (edge : Edge) (edges : List Edge) :
    s.plan store (edge :: edges) =
      if (s.edgePlan store edge).2.error.isSome then s.edgePlan store edge
      else ((s.plan (s.edgePlan store edge).1 edges).1,
        (s.edgePlan store edge).2.andThen (s.plan (s.edgePlan store edge).1 edges).2) := rfl

/-- The plan for edges without indexes has only removals below their prefixes. -/
theorem bare_plan (h : ∀ i ∈ s.indexes, ∀ e ∈ edges, i.edgeType ≠ e.type) (store : Store τ) :
    (s.plan store edges).2.Bare (s.Below edges) := by
  induction edges generalizing store with
  | nil => exact ⟨fun _ h => absurd h List.not_mem_nil, fun _ h => absurd h List.not_mem_nil⟩
  | cons edge edges ih =>
    have hfirst : (s.edgePlan store edge).2.Bare (s.Below (edge :: edges)) :=
      (bare_edgePlan (fun i hi => h i hi edge (List.mem_cons_self ..)) store).mono
        fun k hk => ⟨edge, List.mem_cons_self .., hk⟩
    have hrest : (s.plan (s.edgePlan store edge).1 edges).2.Bare (s.Below (edge :: edges)) :=
      (ih (fun i hi e he => h i hi e (List.mem_cons_of_mem _ he)) _).mono
        fun k ⟨e, he, hk⟩ => ⟨e, List.mem_cons_of_mem _ he, hk⟩
    rw [plan_cons]
    by_cases herror : (s.edgePlan store edge).2.error.isSome = true
    · rw [if_pos herror]
      exact hfirst
    · rw [if_neg herror]
      exact hfirst.andThen hrest

/-- The same plan is made for an edge without indexes from other values and for other markers. -/
theorem edgePlan_of_sameKeys {store' : Store τ} (h : ∀ i ∈ s.indexes, i.edgeType ≠ edge.type)
    (hstore : store.SameKeys store') (markers : IndexMarkers) :
    (s.edgePlan store edge).1.SameKeys ({ s with markers := markers }.edgePlan store' edge).1 ∧
      ({ s with markers := markers }.edgePlan store' edge).2 = (s.edgePlan store edge).2 := by
  cases hwidth : widthError? s.vidLen edge with
  | some e =>
    rw [edgePlan, edgePlan, hwidth]
    exact ⟨hstore, rfl⟩
  | none =>
    obtain ⟨hsame, hfound⟩ := hstore.scan s.place (Key.edgePrefix s.vidLen s.place.part edge)
    rw [edgePlan_of_unindexed h hwidth,
      edgePlan_of_unindexed (s := { s with markers := markers }) h hwidth]
    exact ⟨hsame, congrArg (s.barePlan edge) hfound.symm⟩

/-- The same plan is made for edges without indexes from other values and for other markers. -/
theorem plan_of_sameKeys {store' : Store τ} (h : ∀ i ∈ s.indexes, ∀ e ∈ edges, i.edgeType ≠ e.type)
    (hstore : store.SameKeys store') (markers : IndexMarkers) :
    (s.plan store edges).1.SameKeys ({ s with markers := markers }.plan store' edges).1 ∧
      ({ s with markers := markers }.plan store' edges).2 = (s.plan store edges).2 := by
  induction edges generalizing store store' with
  | nil => exact ⟨hstore, rfl⟩
  | cons edge edges ih =>
    obtain ⟨hfirst, hplan⟩ := edgePlan_of_sameKeys
      (fun i hi => h i hi edge (List.mem_cons_self ..)) hstore markers
    obtain ⟨hrest, hplans⟩ := ih (fun i hi e he => h i hi e (List.mem_cons_of_mem _ he)) hfirst
    rw [plan_cons, plan_cons, hplan]
    by_cases herror : (s.edgePlan store edge).2.error.isSome = true
    · rw [if_pos herror, if_pos herror]
      exact ⟨hfirst, hplan⟩
    · rw [if_neg herror, if_neg herror]
      exact ⟨hrest, by rw [hplans]⟩

end Scene

end EdgeDeletion
