/-
The same plan made at another moment.

What is planned for an edge depends on the space and on the keys below the prefix of the
edge; the count of writes in flight shows in the trace only.  So a plan made from other
contents fails in the same way and has the same steps as long as those keys agree:

* `plan_error` — the failure of a plan, edge by edge;
* `edgeError_congr`, `edgeSteps_congr` — what the contents have to do with it;
* `length_encode_toOps` — the payload is as long whatever numbers are drawn.
-/
import EdgeDeletion.Proofs.BatchCodec
import EdgeDeletion.Proofs.Planning

namespace EdgeDeletion

universe u

/-! ### Stores with the same partitions -/

namespace Store

variable {τ : Type u}

/-- What is stored in a partition, which is nothing if it is not here. -/
def stored (s : Store τ) (place : Place) : Contents := (s.parts.get? place).getD .empty

/-- The same partitions are here. -/
def SamePlaces (s s' : Store τ) : Prop :=
  ∀ place, (s.parts.get? place).isSome = (s'.parts.get? place).isSome

variable {s s' : Store τ} {place : Place}

theorem stored_of_contents {c : Contents} (h : s.contents place = .ok c) : s.stored place = c := by
  rw [stored, contents_eq_ok_iff.1 h]
  rfl

/-- A partition that is added has nothing in it. -/
theorem stored_addPart (s : Store τ) (added place : Place) :
    (s.addPart added).stored place = s.stored place := by
  rw [addPart, OrderedMap.contains]
  cases hpart : s.parts.get? added with
  | some c => rfl
  | none =>
    show (OrderedMap.get? (s.parts.insert added .empty) place).getD .empty = s.stored place
    rw [OrderedMap.get?_insert, stored]
    by_cases hplace : place = added
    · rw [if_pos hplace, hplace, hpart]
      rfl
    · rw [if_neg hplace]

theorem stored_put {target : Place} {key value : Bytes} (h : s.put target key value = .ok s')
    (place : Place) : s'.stored place
      = if place = target then OrderedMap.insert (s.stored target) key value
        else s.stored place := by
  rw [put] at h
  cases hc : s.contents target with
  | error code => simp [hc, Except.map] at h
  | ok c =>
    simp only [hc, Except.map, Except.ok.injEq] at h
    rw [← h, stored_of_contents hc]
    show (OrderedMap.get? (s.parts.insert target (c.insert key value)) place).getD .empty = _
    rw [OrderedMap.get?_insert]
    by_cases hplace : place = target
    · rw [if_pos hplace, if_pos hplace]
      rfl
    · rw [if_neg hplace, if_neg hplace]
      rfl

theorem contents_congr (h : s.parts = s'.parts) : s.contents = s'.contents := by
  funext place
  simp only [contents, missingCode, h]

/-- The code for a partition that is not here depends on which ones are. -/
theorem missingCode_congr (h : s.SamePlaces s') (place : Place) :
    s.missingCode place = s'.missingCode place := by
  have hany : (s.parts.keys.any fun p => p.space == place.space)
      = s'.parts.keys.any fun p => p.space == place.space := by
    rw [Bool.eq_iff_iff, List.any_eq_true, List.any_eq_true]
    simp only [OrderedMap.mem_keys_iff, h _]
  rw [missingCode, missingCode, hany]

/-- Either the partition is here or not, in both stores. -/
theorem contents_of_samePlaces (h : s.SamePlaces s') (place : Place) :
    (∃ code, s.contents place = .error code ∧ s'.contents place = .error code) ∨
      (s.contents place = .ok (s.stored place) ∧ s'.contents place = .ok (s'.stored place)) := by
  have hplace := h place
  have hcode := missingCode_congr h place
  simp only [contents, stored]
  cases hc : s.parts.get? place <;> cases hc' : s'.parts.get? place <;> simp_all

/-- No partition comes or goes by a write. -/
theorem samePlaces_apply (s : Store τ) (w : Write τ) : (s.apply w).1.SamePlaces s := by
  intro place
  cases hresult : (s.apply w).2.result with
  | error code => rw [apply_parts_of_error hresult]
  | ok u =>
    obtain ⟨c, ops, hc, -, hparts⟩ := apply_of_ok hresult
    rw [hparts, OrderedMap.get?_insert]
    by_cases hplace : place = w.place
    · rw [if_pos hplace, hplace, hc]
      rfl
    · rw [if_neg hplace]

end Store

/-! ### Plans apart from their trace -/

namespace Plan

/-- The plans have the same steps and fail in the same way. -/
structure Alike (p q : Plan) : Prop where
  steps : p.steps = q.steps
  error : p.error = q.error

theorem Alike.refl (p : Plan) : p.Alike p := ⟨rfl, rfl⟩

theorem Alike.andThen {p p' q q' : Plan} (h : p.Alike p') (h' : q.Alike q') :
    (p.andThen q).Alike (p'.andThen q') := by
  obtain ⟨steps, trace, error⟩ := p
  obtain ⟨steps', trace', error'⟩ := p'
  obtain ⟨rfl, rfl⟩ : steps = steps' ∧ error = error' := ⟨h.steps, h.error⟩
  cases error with
  | none => exact ⟨congrArg (steps ++ ·) h'.steps, h'.error⟩
  | some e => exact ⟨rfl, rfl⟩

theorem alike_sequence {α : Type u} {f g : α → Plan} (l : List α)
    (h : ∀ a ∈ l, (f a).Alike (g a)) : (sequence (l.map f)).Alike (sequence (l.map g)) := by
  induction l with
  | nil => exact .refl _
  | cons a l ih =>
    exact (h a (List.mem_cons_self ..)).andThen (ih fun b hb => h b (List.mem_cons_of_mem _ hb))

end Plan

namespace Scene

variable (s : Scene)

/-- The scene with nothing in flight. -/
def still : Scene := { s with inflight := 0 }

theorem entryPlan_still (edge : Edge) (row : Row) (index : Index) :
    (s.still.entryPlan edge row index).Alike (s.entryPlan edge row index) := by
  rw [entryPlan, entryPlan]
  cases Image.ofRow row index.columns with
  | error cause => exact .refl _
  | ok image =>
    refine Plan.Alike.andThen ⟨rfl, rfl⟩ ?_
    exact .refl _

theorem entriesPlan_still (edge : Edge) (raw : Bytes) :
    (s.still.entriesPlan edge raw).Alike (s.entriesPlan edge raw) := by
  rw [entriesPlan, entriesPlan]
  have hindexes : s.still.indexes = s.indexes := rfl
  rw [hindexes]
  cases s.indexes.filter fun i => i.edgeType == edge.type with
  | nil => exact .refl _
  | cons index indexes =>
    refine Plan.Alike.andThen (.refl _) ?_
    have hcatalog : s.still.catalog = s.catalog := rfl
    have hplace : s.still.place = s.place := rfl
    rw [hcatalog, hplace]
    cases s.catalog.decodeRow s.place.space edge.type raw with
    | error source => exact .refl _
    | ok row => exact Plan.alike_sequence _ fun i _ => s.entryPlan_still edge row i

theorem keysPlan_still (edge : Edge) (found : List (Bytes × Bytes)) :
    (s.still.keysPlan edge found).Alike (s.keysPlan edge found) := by
  rw [keysPlan, keysPlan]
  refine Plan.Alike.andThen (.refl _) ?_
  have hvidLen : s.still.vidLen = s.vidLen := rfl
  rw [hvidLen]
  cases found.dropWhile fun e => Key.kind s.vidLen e.1 == .lock with
  | nil => exact .refl _
  | cons e rest =>
    obtain ⟨key, raw⟩ := e
    show Plan.Alike (if Key.kind s.vidLen key = .record then _ else _)
      (if Key.kind s.vidLen key = .record then _ else _)
    by_cases hkey : Key.kind s.vidLen key = .record
    · rw [if_pos hkey, if_pos hkey]
      exact (s.entriesPlan_still edge raw).andThen (.refl _)
    · rw [if_neg hkey, if_neg hkey]
      exact .refl _

theorem edgeSteps_still (c : Contents) (edge : Edge) :
    s.still.edgeSteps c edge = s.edgeSteps c edge :=
  (s.keysPlan_still edge _).steps

/-! ### Failures, edge by edge -/

/-- How the plan for an edge fails, from what there is of the partition. -/
def edgeError (contents : Except StoreCode Contents) (edge : Edge) : Option DeleteError :=
  (widthError? s.vidLen edge).or
    (match contents with
    | .error code => some (.store code)
    | .ok c => (s.keysPlan edge (s.found c edge)).error)

theorem edgeError_still (contents : Except StoreCode Contents) (edge : Edge) :
    s.still.edgeError contents edge = s.edgeError contents edge := by
  cases contents with
  | error code => rfl
  | ok c => exact congrArg (Option.or _) (s.keysPlan_still edge _).error

variable {s} {τ : Type u} {store : Store τ}

/-- An edge that has not the width fails whatever is stored. -/
theorem edgeError_of_width {edge : Edge} (h : widthError? s.vidLen edge ≠ none)
    (contents : Except StoreCode Contents) :
    s.edgeError contents edge = widthError? s.vidLen edge := by
  obtain ⟨e, he⟩ := Option.ne_none_iff_exists'.1 h
  unfold edgeError
  rw [he]
  rfl

theorem edgePlan_error (hfault : store.scanFaults.get? s.place = none) (edge : Edge) :
    (s.edgePlan store edge).1 = store ∧
      (s.edgePlan store edge).2.error = s.edgeError (store.contents s.place) edge := by
  unfold edgePlan edgeError
  cases hwidth : widthError? s.vidLen edge with
  | some e => exact ⟨rfl, rfl⟩
  | none =>
    simp only [Store.scan, hfault]
    cases hc : store.contents s.place with
    | error code => exact ⟨trivial, rfl⟩
    | ok c => exact ⟨trivial, Plan.error_andThen _ _⟩

/-- Unless the scan is set to fail, a plan fails for the first edge that does. -/
theorem plan_error (hfault : store.scanFaults.get? s.place = none) (edges : List Edge) :
    (s.plan store edges).1 = store ∧
      (s.plan store edges).2.error = edges.findSome? (s.edgeError (store.contents s.place)) := by
  induction edges with
  | nil => exact ⟨rfl, rfl⟩
  | cons edge edges ih =>
    obtain ⟨hstore, herror⟩ := edgePlan_error hfault edge
    rw [plan, List.findSome?_cons, ← herror]
    cases hedge : (s.edgePlan store edge).2.error with
    | some e => simp [hedge, hstore]
    | none =>
      simp only [hedge, Option.isSome_none, Bool.false_eq_true, if_false, hstore]
      refine ⟨ih.1, ?_⟩
      rw [Plan.error_andThen, hedge, ih.2]
      rfl

/-! ### What the contents have to do with it -/

variable {c d : Contents} {edge : Edge}

theorem found_congr
    (h : ∀ k, Key.edgePrefix s.vidLen s.place.part edge <+: k → c.get? k = d.get? k) :
    s.found c edge = s.found d edge :=
  Store.entriesFrom_congr h

theorem edgeSteps_congr
    (h : ∀ k, Key.edgePrefix s.vidLen s.place.part edge <+: k → c.get? k = d.get? k) :
    s.edgeSteps c edge = s.edgeSteps d edge := by
  rw [edgeSteps, edgeSteps, found_congr h]

theorem edgeError_congr
    (h : ∀ k, Key.edgePrefix s.vidLen s.place.part edge <+: k → c.get? k = d.get? k) :
    s.edgeError (.ok c) edge = s.edgeError (.ok d) edge := by
  simp only [edgeError, found_congr h]

/-- An edge without keys has nothing to fail but its width. -/
theorem edgeError_of_none (hwidth : edge.hasWidth s.vidLen = true)
    (h : ∀ k, Key.edgePrefix s.vidLen s.place.part edge <+: k → c.get? k = none) :
    s.edgeError (.ok c) edge = none := by
  have hfound : s.found c edge = s.found .empty edge := found_congr h
  show (widthError? s.vidLen edge).or (s.keysPlan edge (s.found c edge)).error = none
  rw [widthError?, if_pos hwidth, hfound]
  rfl

/-- An edge fails in the same way in stores that agree below its prefix. -/
theorem edgeError_of_agree {store' : Store τ} (hplaces : store.SamePlaces store')
    (h : ∀ k, Key.edgePrefix s.vidLen s.place.part edge <+: k →
      (store.stored s.place).get? k = (store'.stored s.place).get? k) :
    s.edgeError (store.contents s.place) edge = s.edgeError (store'.contents s.place) edge := by
  rcases Store.contents_of_samePlaces hplaces s.place with ⟨code, hc, hc'⟩ | ⟨hc, hc'⟩
  · rw [hc, hc']
  · rw [hc, hc', edgeError_congr h]

/-- What a plan that does not fail is made from, also if the partition is not here, where only
the empty plan does not fail. -/
theorem plan_stored {edges : List Edge} (h : (s.plan store edges).2.error = none) :
    (∀ edge ∈ edges, edge.hasWidth s.vidLen = true ∧
        (s.keysPlan edge (s.found (store.stored s.place) edge)).error = none) ∧
      (s.plan store edges).2.steps = edges.flatMap (s.edgeSteps (store.stored s.place)) := by
  cases hc : store.contents s.place with
  | ok c =>
    rw [Store.stored_of_contents hc]
    exact plan_steps hc h
  | error code =>
    cases edges with
    | nil => exact ⟨by simp, rfl⟩
    | cons edge edges =>
      -- the scan for the first edge has failed
      obtain ⟨-, hall, -⟩ := plan_of_ok h
      obtain ⟨-, -, c, hc', -⟩ := edgePlan_of_ok (hall edge (List.mem_cons_self ..))
      rw [hc] at hc'
      simp at hc'

end Scene

/-! ### Changes -/

/-- What a change comes to wherever it is applied: keys go, and the log gains lines. -/
def Change.Does (change : Change) (part : PartId) (removed : List Bytes)
    (lines : List (UInt64 × Bytes)) : Prop :=
  ∀ ops, Store.opsOf change = .ok ops → ∀ c : Contents,
    c.apply ops = (c.without removed).withLog part lines

theorem does_remove (part : PartId) (keys : List Bytes) :
    (Change.remove keys).Does part keys [] := by
  intro ops hops c
  rw [← Except.ok.inj hops, Contents.apply_map_remove]
  rfl

theorem does_batch {part : PartId} {steps : List Step}
    (h : ∀ k ∈ Step.removedKeys steps, k.head? ≠ some Key.operationTag) (q : Sequencer) :
    (Change.batch (Batch.encode (Step.toOps part q steps).1)).Does part (Step.removedKeys steps)
      ((q.drawMany (Step.deferredKeys steps).length).1.zip (Step.deferredKeys steps)) := by
  intro ops hops c
  obtain rfl := Batch.eq_of_decode_encode hops
  exact Step.apply_toOps h q c

/-- The payload for steps is as long whatever numbers are drawn. -/
theorem length_encode_toOps (part : PartId) (q q' : Sequencer) (steps : List Step) :
    (Batch.encode (Step.toOps part q steps).1).length
      = (Batch.encode (Step.toOps part q' steps).1).length := by
  have hlengths : ∀ q q' : Sequencer,
      (Step.toOps part q steps).1.map (fun op => (Batch.encodeOp op).length)
        = (Step.toOps part q' steps).1.map (fun op => (Batch.encodeOp op).length) := by
    induction steps with
    | nil => intro q q'; rfl
    | cons step steps ih =>
      intro q q'
      cases step with
      | deferral key =>
        -- the only step with a number, which takes eight bytes whatever it is
        have hop : (Batch.encodeOp (.put (Key.deferral part q.draw.1) key)).length
            = (Batch.encodeOp (.put (Key.deferral part q'.draw.1) key)).length := by
          simp only [Batch.encodeOp, Batch.encodeBytes, List.length_cons, List.length_append,
            Key.length_deferral]
        exact List.cons_eq_cons.2 ⟨hop, ih q.draw.2 q'.draw.2⟩
      | lock key => exact congrArg (_ :: ·) (ih q q')
      | entry key => exact congrArg (_ :: ·) (ih q q')
      | record key => exact congrArg (_ :: ·) (ih q q')
      | version key => exact congrArg (_ :: ·) (ih q q')
  have hcount := congrArg List.length (hlengths q q')
  have hsum := congrArg List.sum (hlengths q q')
  rw [List.length_map, List.length_map] at hcount
  simp only [Batch.encode, List.length_cons, List.length_append, List.length_flatMap, hcount, hsum]

/-- A payload decodes whatever numbers are drawn, or it never does. -/
theorem opsOf_toOps_iff (part : PartId) (q q' : Sequencer) (steps : List Step) :
    (∃ ops, Store.opsOf (.batch (Batch.encode (Step.toOps part q steps).1)) = .ok ops) ↔
      ∃ ops, Store.opsOf (.batch (Batch.encode (Step.toOps part q' steps).1)) = .ok ops := by
  simp only [Store.opsOf, Batch.decode_encode_eq, length_encode_toOps part q q']

end EdgeDeletion
