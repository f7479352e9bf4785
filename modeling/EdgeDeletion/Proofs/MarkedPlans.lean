/-
Plans under different markers.

The state of an index decides when an entry goes, and nothing else: at once if the index
is in the normal state, with the replay of the log if it is under rebuild.  So two plans
that are made under different markers, none of which is locked, have the same steps as
soon as everything deferred is taken as done.

* `Plan.Settles` — plans that fail alike, and whose steps are the same once settled;
* `Step.length_encode_toOps_le` — a batch is no longer than its steps weigh, and they weigh
  the same once settled;
* `Scene.plan_settles` — plans under different markers.
-/
import EdgeDeletion.Proofs.Paths

namespace EdgeDeletion

universe u

/-! ### Steps, with what is deferred taken as done -/

namespace Step

/-- The step with its entry removed at once. -/
def settled : Step → Step
  | .deferral key => .entry key
  | step => step

/-- A key goes at once or later. -/
theorem mem_removedKeys_settled {steps : List Step} {k : Bytes} :
    k ∈ removedKeys (steps.map settled) ↔ k ∈ removedKeys steps ∨ k ∈ deferredKeys steps := by
  simp only [removedKeys, deferredKeys, List.mem_filterMap, List.mem_map]
  constructor
  · rintro ⟨-, ⟨step, hstep, rfl⟩, hk⟩
    cases step with
    | deferral key => exact .inr ⟨_, hstep, hk⟩
    | _ => exact .inl ⟨_, hstep, hk⟩
  · rintro (⟨step, hstep, hk⟩ | ⟨step, hstep, hk⟩)
    · refine ⟨step.settled, ⟨step, hstep, rfl⟩, ?_⟩
      cases step with
      | deferral key => simp [removed?] at hk
      | _ => exact hk
    · refine ⟨step.settled, ⟨step, hstep, rfl⟩, ?_⟩
      cases step with
      | deferral key => exact hk
      | _ => simp [deferred?] at hk

/-- How many bytes of a batch a step takes at most, whether an entry goes at once or later. -/
def weight : Step → Nat
  | .entry key | .deferral key => key.length + 35
  | .lock key | .record key | .version key => key.length + 11

theorem weight_settled (step : Step) : step.settled.weight = step.weight := by
  cases step <;> rfl

theorem sum_weight_settled (steps : List Step) :
    ((steps.map settled).map weight).sum = (steps.map weight).sum := by
  rw [List.map_map]
  exact congrArg List.sum (List.map_congr_left fun step _ => weight_settled step)

/-- A batch is not longer than its steps weigh. -/
theorem length_encode_toOps_le (part : PartId) (q : Sequencer) (steps : List Step) :
    (Batch.encode (toOps part q steps).1).length ≤ 11 + (steps.map weight).sum := by
  have hremove : ∀ key : Bytes, (Batch.encodeOp (.remove key)).length ≤ key.length + 11 := by
    intro key
    have hdigits := Varint.length_encode_le (UInt64.ofNat key.length)
    simp only [Batch.encodeOp, Batch.encodeBytes, List.length_cons, List.length_append]
    omega
  have hput : ∀ (x : UInt64) (key : Bytes),
      (Batch.encodeOp (.put (Key.deferral part x) key)).length ≤ key.length + 35 := by
    intro x key
    have hdigits := Varint.length_encode_le (UInt64.ofNat (Key.deferral part x).length)
    have hdigits' := Varint.length_encode_le (UInt64.ofNat key.length)
    have hlen := Key.length_deferral part x
    simp only [Batch.encodeOp, Batch.encodeBytes, List.length_cons, List.length_append]
    omega
  have hops : ((toOps part q steps).1.flatMap Batch.encodeOp).length ≤ (steps.map weight).sum := by
    induction steps generalizing q with
    | nil => exact Nat.le_refl _
    | cons step steps ih =>
      cases step with
      | deferral key =>
        have hop := hput q.draw.1 key
        have hrest := ih q.draw.2
        simp only [toOps, List.flatMap_cons, List.length_append, List.map_cons, List.sum_cons,
          weight]
        omega
      | entry key | lock key | record key | version key =>
        have hop := hremove key
        have hrest := ih q
        simp only [toOps, List.flatMap_cons, List.length_append, List.map_cons, List.sum_cons,
          weight]
        omega
  have hdigits := Varint.length_encode_le (UInt64.ofNat (toOps part q steps).1.length)
  rw [Batch.encode, List.length_cons, List.length_append]
  omega

/-- A batch of steps that weigh little enough is read back. -/
theorem opsOf_toOps (part : PartId) (q : Sequencer) {steps : List Step}
    (hfits : 11 + (steps.map weight).sum < UInt64.size) :
    Store.opsOf (.batch (Batch.encode (toOps part q steps).1)) = .ok (toOps part q steps).1 :=
  Batch.decode_encode_of_lt (Nat.lt_of_le_of_lt (length_encode_toOps_le part q steps) hfits)

end Step

/-! ### Plans under different markers -/

namespace Plan

/-- The plans fail in the same way, and they have the same steps but for entries that one of them
removes and the other one defers. -/
structure Settles (p q : Plan) : Prop where
  steps : p.steps.map Step.settled = q.steps.map Step.settled
  error : p.error = q.error

theorem Settles.refl (p : Plan) : p.Settles p := ⟨rfl, rfl⟩

theorem Settles.andThen {p p' q q' : Plan} (h : p.Settles p') (h' : q.Settles q') :
    (p.andThen q).Settles (p'.andThen q') := by
  obtain ⟨steps, trace, error⟩ := p
  obtain ⟨steps', trace', error'⟩ := p'
  obtain ⟨hsteps, herror⟩ := h
  have herror : error = error' := herror
  subst herror
  cases error with
  | none =>
    refine ⟨?_, h'.error⟩
    show (steps ++ q.steps).map Step.settled = (steps' ++ q'.steps).map Step.settled
    rw [List.map_append, List.map_append, h'.steps]
    exact congrArg (· ++ _) hsteps
  | some e => exact ⟨hsteps, rfl⟩

theorem settles_sequence {α : Type u} {f g : α → Plan} (l : List α)
    (h : ∀ a ∈ l, (f a).Settles (g a)) : (sequence (l.map f)).Settles (sequence (l.map g)) := by
  induction l with
  | nil => exact .refl _
  | cons a l ih =>
    exact (h a (List.mem_cons_self ..)).andThen (ih fun b hb => h b (List.mem_cons_of_mem _ hb))

end Plan

/-- No index is locked anywhere. -/
def IndexMarkers.Unlocked (m : IndexMarkers) : Prop := ∀ place index, m.state place index ≠ .locked

namespace Scene

/-- The scene with other markers. -/
def marked (s : Scene) (markers : IndexMarkers) : Scene := { s with markers := markers }

/-- The key is that of an entry of the stored record of an edge, in an index of any state. -/
def IsEntry (s : Scene) (c : Contents) (edge : Edge) (k : Bytes) : Prop :=
  ∃ raw index, c.get? (Key.record s.vidLen s.place.part edge) = some raw ∧ index ∈ s.indexes ∧
    s.entryKey? edge raw index = some k

variable {s : Scene} {markers : IndexMarkers}

theorem isEntry_of_mem_indexKeys {state : IndexState} {c : Contents} {edge : Edge} {k : Bytes}
    (h : k ∈ s.indexKeys state c edge) : s.IsEntry c edge k := by
  rw [indexKeys] at h
  cases hraw : c.get? (Key.record s.vidLen s.place.part edge) with
  | none => simp [hraw] at h
  | some raw =>
    simp only [hraw, entryKeys, List.mem_filterMap, List.mem_filter] at h
    obtain ⟨index, ⟨hindex, -⟩, hkey⟩ := h
    exact ⟨raw, index, hraw, hindex, hkey⟩

section Settles

variable (hs : s.markers.Unlocked) (hm : markers.Unlocked)
include hs hm

/-- An entry goes at once or later. -/
theorem entryPlan_settles (edge : Edge) (row : Row) (index : Index) :
    (s.entryPlan edge row index).Settles ((s.marked markers).entryPlan edge row index) := by
  rw [entryPlan, entryPlan]
  cases Image.ofRow row index.columns with
  | error cause => exact .refl _
  | ok image =>
    have hstate := hs s.place index.id
    have hstate' := hm s.place index.id
    have hmarked : (s.marked markers).markers.state (s.marked markers).place index.id
        = markers.state s.place index.id := rfl
    simp only [hmarked]
    refine Plan.Settles.andThen ⟨rfl, rfl⟩ ?_
    cases hold : s.markers.state s.place index.id with
    | locked => exact absurd hold hstate
    | normal | rebuilding =>
      cases hnew : markers.state s.place index.id with
      | locked => exact absurd hnew hstate'
      | normal | rebuilding => exact ⟨rfl, rfl⟩

theorem entriesPlan_settles (edge : Edge) (raw : Bytes) :
    (s.entriesPlan edge raw).Settles ((s.marked markers).entriesPlan edge raw) := by
  rw [entriesPlan, entriesPlan]
  have hindexes : (s.marked markers).indexes = s.indexes := rfl
  rw [hindexes]
  cases s.indexes.filter fun i => i.edgeType == edge.type with
  | nil => exact .refl _
  | cons index indexes =>
    refine Plan.Settles.andThen (.refl _) ?_
    have hcatalog : (s.marked markers).catalog = s.catalog := rfl
    have hplace : (s.marked markers).place = s.place := rfl
    rw [hcatalog, hplace]
    cases s.catalog.decodeRow s.place.space edge.type raw with
    | error source => exact .refl _
    | ok row => exact Plan.settles_sequence _ fun i _ => entryPlan_settles hs hm edge row i

theorem keysPlan_settles (edge : Edge) (found : List (Bytes × Bytes)) :
    (s.keysPlan edge found).Settles ((s.marked markers).keysPlan edge found) := by
  rw [keysPlan, keysPlan]
  refine Plan.Settles.andThen (.refl _) ?_
  have hvidLen : (s.marked markers).vidLen = s.vidLen := rfl
  rw [hvidLen]
  cases found.dropWhile fun e => Key.kind s.vidLen e.1 == .lock with
  | nil => exact .refl _
  | cons e rest =>
    obtain ⟨key, raw⟩ := e
    show Plan.Settles (if Key.kind s.vidLen key = .record then _ else _)
      (if Key.kind s.vidLen key = .record then _ else _)
    by_cases hkey : Key.kind s.vidLen key = .record
    · rw [if_pos hkey, if_pos hkey]
      exact (entriesPlan_settles hs hm edge raw).andThen (.refl _)
    · rw [if_neg hkey, if_neg hkey]
      exact .refl _

theorem edgeSteps_settles (c : Contents) (edge : Edge) :
    (s.edgeSteps c edge).map Step.settled
      = ((s.marked markers).edgeSteps c edge).map Step.settled :=
  (keysPlan_settles hs hm edge _).steps

variable {τ : Type u}

theorem edgePlan_settles (store : Store τ) (edge : Edge) :
    (s.edgePlan store edge).1 = ((s.marked markers).edgePlan store edge).1 ∧
      (s.edgePlan store edge).2.Settles ((s.marked markers).edgePlan store edge).2 := by
  rw [edgePlan, edgePlan]
  have hvidLen : (s.marked markers).vidLen = s.vidLen := rfl
  have hplace : (s.marked markers).place = s.place := rfl
  rw [hvidLen, hplace]
  cases widthError? s.vidLen edge with
  | some e => exact ⟨rfl, .refl _⟩
  | none =>
    simp only
    cases (store.scan s.place (Key.edgePrefix s.vidLen s.place.part edge)).2 with
    | error code => exact ⟨trivial, .refl _⟩
    | ok found => exact ⟨trivial, Plan.Settles.andThen (.refl _) (keysPlan_settles hs hm edge found)⟩

/-- Plans under different markers fail in the same way and settle to the same steps. -/
theorem plan_settles (store : Store τ) (edges : List Edge) :
    (s.plan store edges).1 = ((s.marked markers).plan store edges).1 ∧
      (s.plan store edges).2.Settles ((s.marked markers).plan store edges).2 := by
  induction edges generalizing store with
  | nil => exact ⟨rfl, .refl _⟩
  | cons edge edges ih =>
    obtain ⟨hstore, hedge⟩ := edgePlan_settles hs hm store edge
    obtain ⟨hstores, hrest⟩ := ih ((s.marked markers).edgePlan store edge).1
    simp only [plan, hedge.error, hstore]
    by_cases herror : ((s.marked markers).edgePlan store edge).2.error.isSome = true
    · simp only [if_pos herror]
      exact ⟨trivial, hedge⟩
    · simp only [if_neg herror]
      exact ⟨hstores, hedge.andThen hrest⟩

end Settles

end Scene

end EdgeDeletion
