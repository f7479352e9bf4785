/-
What the counters of effects add up.

A write that succeeds has the edges that it deletes and the entries that it removes counted
when its outcome is known.  The removals that it defers are counted before that, when the
write gets its edges, and they stay counted if the store then fails the write, if it is
held back, or if it gets lost.

* `Course.deferrals_eq` — when the removals that are counted are those in the log;
* `effects_counted` — the sums after any run, and when deferrals are counted right;
* `failed_deferral_counted` — a deferral that the store has failed is counted.
-/
import EdgeDeletion.Proofs.Bookings

namespace EdgeDeletion

/-! ### Deferrals of writes that succeed -/

theorem Node.lose_mem_strokesOf {n : Node} {t : Turn} (hloses : n.losesNext = true)
    {change : Change} {edges : Nat} {hold : Option Hold}
    (hverdict : n.verdict t = .write change edges hold) : .lose t.slot ∈ n.strokesOf t := by
  have hwrite : ∀ m : Node, m.losesNext = true → ∀ change edges hold,
      .lose t.slot ∈ m.strokesOfWrite t change edges hold := by
    intro m hm change edges hold
    rw [strokesOfWrite, if_pos hm]
    exact List.mem_cons_self ..
  rw [verdict] at hverdict
  rw [strokesOf]
  cases hindexes : t.indexes.isEmpty with
  | true =>
    simp only [hindexes, if_true, strokesOfPlain] at hverdict ⊢
    cases hwidth : t.edges.findSome? (Scene.widthError? t.vidLen) with
    | some e => simp [hwidth] at hverdict
    | none => exact List.mem_cons_of_mem _ (hwrite n hloses _ _ _)
  | false =>
    simp only [hindexes, Bool.false_eq_true, if_false, strokesOfIndexed, strokesOfPlanned]
      at hverdict ⊢
    cases herror : (n.planOf t).error with
    | some e => simp [herror] at hverdict
    | none =>
      cases hclaim : n.locks.claim t.ids with
      | error edge => simp [herror, hclaim] at hverdict
      | ok claimed =>
        have hlost := hwrite (n.planned t) ((n.planned_losesNext t).trans hloses)
        simp [hlost]

/-- Without index awareness nothing is deferred. -/
theorem Source.lines_of_plain {src : Source} {w : Write Submitter} (hw : w ∈ src.writes)
    (hplain : w.token.hold? = none) : w.lines = [] := by
  cases src with
  | driver name place change =>
    rw [List.mem_singleton.1 hw]
    exact Write.lines_of_outside rfl
  | turn n t =>
    have hindexes := Node.isEmpty_indexes_of_submitted hw
    rw [hplain] at hindexes
    cases hops : Store.opsOf w.change with
    | error e => rw [Write.lines, Node.slot?_of_submitted hw, hops]
    | ok ops =>
      rw [Write.lines_of_ops (Node.slot?_of_submitted hw) hops]
      rcases Node.ops_of_submitted hw hops with ⟨-, rfl⟩ | ⟨hindexed, -⟩
      · simp [BatchOp.put?]
      · exact absurd (hindexed.symm.trans hindexes) Bool.false_ne_true

/-- The lines of a write that the store can read are as many as its turn defers. -/
theorem Source.deferrals_eq {src : Source} (hkept : src.isLost = false)
    (hops : ∀ w ∈ src.writes, w.token.hold?.isSome = true → ∃ ops, Store.opsOf w.change = .ok ops) :
    src.deferrals = (src.writes.map fun w => w.lines.length).sum := by
  cases src with
  | driver name place change =>
    have hlines : Write.lines ⟨place, change, .outside name⟩ = [] := Write.lines_of_outside rfl
    simp [deferrals, writes, hlines]
  | turn n t =>
    cases hverdict : n.verdict t with
    | refused e => simp [deferrals, writes, Node.deferralsIn, Node.submitted, hverdict]
    | write change edges hold =>
      have hloses : n.losesNext = false := by simpa [isLost, hverdict] using hkept
      have hwrites : (Source.turn n t).writes = [t.write change edges hold] := by
        simp [writes, Node.submitted, hverdict, hloses]
      have hmem : t.write change edges hold ∈ (Source.turn n t).writes := by simp [hwrites]
      rw [hwrites, List.map_singleton, List.sum_singleton]
      cases hold with
      | none =>
        rw [lines_of_plain hmem rfl]
        simp [deferrals, Node.deferralsIn, hverdict]
      | some hold =>
        obtain ⟨ops, hops⟩ := hops _ hmem rfl
        have hindexes : t.indexes.isEmpty = false := Node.isEmpty_indexes_of_submitted hmem
        obtain ⟨-, rfl, -⟩ := (Node.ops_of_submitted hmem hops).resolve_left
          fun hplain => absurd (hindexes.symm.trans hplain.1) Bool.false_ne_true
        rw [Write.lines_of_ops (Node.slot?_of_submitted hmem) hops, Node.opsOf, Step.puts_toOps,
          List.length_zip, List.length_map, Sequencer.length_drawMany, Nat.min_self,
          ← Step.countP_isDeferral]
        simp [deferrals, Node.deferralsIn, hverdict]

namespace Session

variable {P : Action → Prop} {s : Session} {h : List Stroke} {l : List Source}

/-- A write gets lost in a stroke of its turn. -/
theorem Course.lose_of_lost (hcourse : Course P s h l) {src : Source} (hsrc : src ∈ l)
    (hlost : src.isLost = true) : ∃ slot, .lose slot ∈ h := by
  induction hcourse with
  | calm | drive | resume => exact absurd hsrc List.not_mem_nil
  | turn s t =>
    rw [List.mem_singleton.1 hsrc, Source.isLost, Bool.and_eq_true] at hlost
    cases hverdict : s.node.verdict t with
    | refused e => simp [hverdict] at hlost
    | write change edges hold => exact ⟨t.slot, Node.lose_mem_strokesOf hlost.1 hverdict⟩
  | submit =>
    rw [List.mem_singleton.1 hsrc] at hlost
    exact absurd hlost Bool.false_ne_true
  | append _ _ ihfirst ihsecond =>
    rcases List.mem_append.1 hsrc with hsrc | hsrc
    · obtain ⟨slot, hmem⟩ := ihfirst hsrc
      exact ⟨slot, List.mem_append_left _ hmem⟩
    · obtain ⟨slot, hmem⟩ := ihsecond hsrc
      exact ⟨slot, List.mem_append_right _ hmem⟩

/-- The lines of the writes that succeed are those of all that the store is done with, if it
fails none that has any. -/
theorem sum_lines_landed (s : Session)
    (hlands : ∀ before w after, h = before ++ .apply w :: after → w.lines ≠ [] →
      ((s.strikeAll before).node.store.apply w).2.result = .ok ()) :
    ((s.landed h).map fun w => w.lines.length).sum
      = ((applies h).map fun w => w.lines.length).sum := by
  induction h generalizing s with
  | nil => rfl
  | cons σ h ih =>
    have hrest := ih (s.strike σ) fun before w after hsplit =>
      hlands (σ :: before) w after (congrArg (σ :: ·) hsplit)
    have hfirst : ((s.lands σ).map fun w => w.lines.length).sum
        = ((applies [σ]).map fun w => w.lines.length).sum := by
      cases σ with
      | apply w =>
        by_cases hlines : w.lines = []
        · show ((if _ then [w] else []).map _).sum = [w.lines.length].sum
          split <;> simp [hlines]
        · have hresult : (s.node.store.apply w).2.result = .ok () := hlands [] w h rfl hlines
          rw [lands, hresult]
          rfl
      | _ => rfl
    rw [show σ :: h = [σ] ++ h from rfl, applies_append, landed_append, List.map_append,
      List.sum_append, List.map_append, List.sum_append, ← hrest, ← hfirst]
    simp [landed]

/-- If no index-aware write gets lost, is still held back or fails, turns defer what the writes
that succeed store. -/
theorem Course.deferrals_eq (hcourse : Course P s h l) (hheld : s.node.store.heldWrites = [])
    (hkept : ∀ slot, .lose slot ∉ h)
    (hdone : ∀ w ∈ (s.strikeAll h).node.store.heldWrites, w.token.hold? = none)
    (hlands : ∀ before w after, h = before ++ .apply w :: after → w.token.hold?.isSome = true →
      ((s.strikeAll before).node.store.apply w).2.result = .ok ()) :
    (l.map Source.deferrals).sum = ((s.landed h).map fun w => w.lines.length).sum := by
  have hqueue := hcourse.queue
  rw [hheld, List.nil_append] at hqueue
  have hsource : ∀ w ∈ l.flatMap Source.writes, w.token.hold? = none → w.lines = [] := by
    intro w hw hplain
    obtain ⟨src, -, hw⟩ := List.mem_flatMap.1 hw
    exact Source.lines_of_plain hw hplain
  have hlanded := s.sum_lines_landed (h := h) fun before w after hsplit hlines => by
    refine hlands before w after hsplit (Option.isSome_iff_ne_none.2 fun hplain => hlines ?_)
    refine hsource w ?_ hplain
    rw [← hqueue, hsplit, applies_append]
    exact List.mem_append_left _ (List.mem_append_right _ (List.mem_cons_self ..))
  have hwaiting : ((s.strikeAll h).node.store.heldWrites.map fun w => w.lines.length).sum = 0 := by
    refine List.sum_eq_zero fun x hx => ?_
    obtain ⟨w, hw, rfl⟩ := List.mem_map.1 hx
    have hmem : w ∈ l.flatMap Source.writes := by
      rw [← hqueue]
      exact List.mem_append_right _ hw
    simp [hsource w hmem (hdone w hw)]
  have hsources : l.map Source.deferrals
      = l.map fun src => (src.writes.map fun w => w.lines.length).sum := by
    refine List.map_congr_left fun src hsrc => Source.deferrals_eq ?_ fun w hw hhold => ?_
    · by_contra hlost
      obtain ⟨slot, hmem⟩ := hcourse.lose_of_lost hsrc (by simpa using hlost)
      exact hkept slot hmem
    · -- the store could read the write since it has succeeded
      have hmem : w ∈ applies h := by
        have hmem : w ∈ l.flatMap Source.writes := List.mem_flatMap.2 ⟨src, hsrc, hw⟩
        rw [← hqueue] at hmem
        refine (List.mem_append.1 hmem).resolve_right fun hw => ?_
        rw [hdone w hw] at hhold
        exact absurd hhold Bool.false_ne_true
      obtain ⟨σ, hσ, happlied⟩ := List.mem_filterMap.1 hmem
      obtain rfl : σ = .apply w := by
        cases σ <;> simp_all [Stroke.applied?]
      obtain ⟨before, after, hsplit⟩ := List.append_of_mem hσ
      obtain ⟨-, ops, -, hops, -⟩ := Store.apply_of_ok (hlands before w after hsplit hhold)
      exact ⟨ops, hops⟩
  have hflat : (l.map fun src => (src.writes.map fun w => w.lines.length).sum).sum
      = ((l.flatMap Source.writes).map fun w => w.lines.length).sum := by
    rw [List.map_flatMap, List.flatMap_def, List.sum_flatten, List.map_map]
    rfl
  rw [hsources, hflat, ← hqueue, List.map_append, List.sum_append, hwaiting, hlanded, Nat.add_zero]

theorem sum_effects_landed (ws : List (Write Submitter)) :
    (ws.map Write.effects).sum
      = (UInt64.ofNat (ws.map Write.edges).sum, UInt64.ofNat (ws.map Write.entries).sum, 0) := by
  induction ws with
  | nil => rfl
  | cons w ws ih => simp [ih, Write.effects, UInt64.ofNat_add]

theorem sum_effects_sources (l : List Source) :
    (l.map Source.effects).sum = (0, 0, UInt64.ofNat (l.map Source.deferrals).sum) := by
  induction l with
  | nil => rfl
  | cons src l ih => simp [ih, Source.effects, UInt64.ofNat_add]

/-- **The counters of effects add up what succeeds, but deferrals are counted before that.**  In
any run the counters of edges and of entries grow by those of the writes that succeed, and the
partition of each such write reports success.  The counter of deferrals grows by what turns
defer whose edges are granted.  These are the removals that the writes which succeed store in
the log, if no index-aware write gets lost, is still held back or is failed by the store. -/
theorem effects_counted (s : Session) (actions : List Action) :
    let h := s.timeline actions
    let s' := s.run actions
    let deferred := ((s.sources actions).map Source.deferrals).sum
    s'.node.effects = s.node.effects.map (· +
      (UInt64.ofNat ((s.landed h).map Write.edges).sum,
        UInt64.ofNat ((s.landed h).map Write.entries).sum, UInt64.ofNat deferred)) ∧
    (∀ w ∈ s.landed h, ∀ slot, w.token.slot? = some slot → .report slot .succeeded ∈ h) ∧
    (s.node.store.heldWrites = [] → (∀ slot, .lose slot ∉ h) →
      (∀ w ∈ s'.node.store.heldWrites, w.token.hold? = none) →
      (∀ before w after, h = before ++ .apply w :: after → w.token.hold?.isSome = true →
        ((s.strikeAll before).node.store.apply w).2.result = .ok ()) →
      deferred = ((s.landed h).map fun w => w.lines.length).sum) := by
  intro h s' deferred
  have hbooked := s.booked_timeline actions
  have hcourse : Course (fun _ => True) s h (s.sources actions) :=
    s.course_timeline (fun _ _ => trivial) trivial
  have hrun : s.strikeAll h = s' := s.strikeAll_timeline actions
  refine ⟨?_, hbooked.reports, fun hheld hkept hdone hlands => ?_⟩
  · rw [← hrun, s.effects_strikeAll hbooked.aside, hbooked.effects, sum_effects_landed,
      sum_effects_sources]
    simp [deferred, h]
  · rw [← hrun] at hdone
    exact hcourse.deferrals_eq hheld hkept hdone hlands

/-- A session with counters, whose index is under rebuild. -/
def rebuildingCounted : Session :=
  ((start {} Node.sample.catalog fun _ => 0).counting (some {})).run rebuilding

theorem effects_counted_sample :
    let s := rebuildingCounted
    let h := s.timeline deleting
    (∀ slot, .lose slot ∉ h) ∧
      (∀ before w after, h = before ++ .apply w :: after → w.token.hold?.isSome = true →
        ((s.strikeAll before).node.store.apply w).2.result = .ok ()) ∧
      s.node.effects = some (0, 0, 0) ∧ (s.run deleting).node.effects = some (2, 0, 2) ∧
      ((s.landed h).map fun w => w.lines.length).sum = 2 := by
  intro s h
  have hkept : ∀ slot, .lose slot ∉ h := by
    have hall : (h.all fun σ => !(σ matches .lose _)) = true := by decide +kernel
    exact fun slot hmem => absurd (List.all_eq_true.1 hall _ hmem) Bool.false_ne_true
  have hlands : ∀ before w after, h = before ++ .apply w :: after → w.token.hold?.isSome = true →
      ((s.strikeAll before).node.store.apply w).2.result = .ok () := by
    intro before w after hsplit _
    -- by the positions in the timeline
    have hall : ((List.range h.length).all fun k =>
        ((h.drop k).head?.bind Stroke.applied?).all fun w =>
          ((s.strikeAll (h.take k)).node.store.apply w).2.result = .ok ()) = true := by
      decide +kernel
    have hlen : before.length ∈ List.range h.length := by
      rw [List.mem_range, hsplit, List.length_append, List.length_cons]
      omega
    have hat := List.all_eq_true.1 hall _ hlen
    rw [hsplit, List.drop_left, List.take_left] at hat
    simpa [Stroke.applied?] using hat
  have hheld : s.node.store.heldWrites = [] := by decide +kernel
  have hdone : ∀ w ∈ (s.run deleting).node.store.heldWrites, w.token.hold? = none := by
    have hnone : (s.run deleting).node.store.heldWrites = [] := by decide +kernel
    simp [hnone]
  obtain ⟨hcounted, -, hdeferred⟩ := effects_counted s deleting
  have hstart : s.node.effects = some (0, 0, 0) := by decide +kernel
  have hsum : ((s.landed h).map fun w => w.lines.length).sum = 2 := by decide +kernel
  have hedges : ((s.landed h).map Write.edges).sum = 2 := by decide +kernel
  have hentries : ((s.landed h).map Write.entries).sum = 0 := by decide +kernel
  rw [hdeferred hheld hkept hdone hlands, hsum, hedges, hentries, hstart] at hcounted
  exact ⟨hkept, hlands, hstart, hcounted.trans (by decide), hsum⟩

/-- A deferral that the store has failed is counted: the partition reports the failure, nothing is
stored, and the counter of deferrals has grown. -/
theorem failed_deferral_counted :
    let s := rebuildingCounted
    let r := (DeleteRequest.empty 1).addPart 3 [Node.sampleEdge]
    let actions := [.failWrite ⟨1, 3⟩ .writeStalled, .delete r]
    (s.run actions).node.codeOf? 0 3 = some (.store .writeStalled) ∧
      s.landed (s.timeline actions) = [] ∧
      (s.run actions).node.store.entries ⟨1, 3⟩ = s.node.store.entries ⟨1, 3⟩ ∧
      s.node.effects = some (0, 0, 0) ∧ (s.run actions).node.effects = some (0, 0, 1) := by
  refine ⟨by decide +kernel, ?_, by decide +kernel, by decide +kernel, by decide +kernel⟩
  exact List.isEmpty_iff.1 (by decide +kernel)

end Session

end EdgeDeletion
