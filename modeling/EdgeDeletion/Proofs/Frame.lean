/-
What the turns of some partitions leave alone.

On a node that holds no writes back, a turn changes the contents of its own partition
and the report of its own request at most (`frame_work`).  What it claims it gives up
again, and it draws numbers from the sequencer, how many depending on the turn.  So the
turn of a partition shows in the node after the whole request as it does by itself
(`atTurn_of_mem`).
-/
import EdgeDeletion.Proofs.Requests

namespace EdgeDeletion

namespace Node

/-- The second node comes from the first one by turns on it, none of which leaves a write
behind. -/
structure Frame (ts : List Turn) (n m : Node) : Prop where
  catalog : m.catalog = n.catalog
  markers : m.markers = n.markers
  held : m.store.held = n.store.held
  locks : m.locks = n.locks
  inflight : m.inflight = n.inflight
  draws : ∃ k, m.sequencer = (n.sequencer.drawMany k).2
  requests : m.requests.length = n.requests.length
  parts : ∀ place, (∀ t ∈ ts, t.place ≠ place) →
    m.store.parts.get? place = n.store.parts.get? place
  codes : ∀ request part, (∀ t ∈ ts, t.request = request → t.place.part ≠ part) →
    m.codeOf? request part = n.codeOf? request part

namespace Frame

variable {ts ts' : List Turn} {n m l : Node}

theorem refl (n : Node) : Frame [] n n :=
  ⟨rfl, rfl, rfl, rfl, rfl, ⟨0, rfl⟩, rfl, fun _ _ => rfl, fun _ _ _ => rfl⟩

theorem trans (h : Frame ts n m) (h' : Frame ts' m l) : Frame (ts ++ ts') n l where
  catalog := h'.catalog.trans h.catalog
  markers := h'.markers.trans h.markers
  held := h'.held.trans h.held
  locks := h'.locks.trans h.locks
  inflight := h'.inflight.trans h.inflight
  draws := by
    obtain ⟨j, hj⟩ := h.draws
    obtain ⟨k, hk⟩ := h'.draws
    exact ⟨j + k, by rw [hk, hj, Sequencer.drawMany_add]⟩
  requests := h'.requests.trans h.requests
  parts place hplace := by
    rw [h'.parts place fun t ht => hplace t (List.mem_append_right ts ht),
      h.parts place fun t ht => hplace t (List.mem_append_left ts' ht)]
  codes request part hpart := by
    rw [h'.codes request part fun t ht => hpart t (List.mem_append_right ts ht),
      h.codes request part fun t ht => hpart t (List.mem_append_left ts' ht)]

theorem mono (h : Frame ts n m) (hsub : ∀ t ∈ ts, t ∈ ts') : Frame ts' n m :=
  { h with
    parts := fun place hplace => h.parts place fun t ht => hplace t (hsub t ht)
    codes := fun request part hpart => h.codes request part fun t ht => hpart t (hsub t ht) }

/-- Trace and counters do not matter. -/
theorem of_quiet (h : Frame ts n m) (hl : l.quiet = m.quiet) : Frame ts n l := by
  have h' : Frame ts n l.quiet := by
    rw [hl]
    exact ⟨h.catalog, h.markers, h.held, h.locks, h.inflight, h.draws, h.requests, h.parts, h.codes⟩
  exact ⟨h'.catalog, h'.markers, h'.held, h'.locks, h'.inflight, h'.draws, h'.requests, h'.parts,
    h'.codes⟩

end Frame

variable {n : Node}

theorem frame_planned (n : Node) (t : Turn) : Frame [] n (n.planned t) := by
  obtain ⟨faults, k, h⟩ := n.planned_eq t
  rw [h]
  exact ⟨rfl, rfl, rfl, rfl, rfl, ⟨k, rfl⟩, rfl, fun _ _ => rfl, fun _ _ _ => rfl⟩

theorem frame_report (n : Node) (t : Turn) (code : ResultCode) :
    Frame [t] n (n.report t.request t.place.part code) := by
  have hquiet := n.quiet_report t.request t.place.part code
  refine Frame.of_quiet (m := { n with requests := n.requests.modify t.request _ }) ?_ hquiet
  refine ⟨rfl, rfl, rfl, rfl, rfl, ⟨0, rfl⟩, List.length_modify .., fun _ _ => rfl, ?_⟩
  intro request part hpart
  have hcode := n.codeOf?_report_of_ne (hpart t (List.mem_singleton_self t)) code
  exact (congrArg (Node.codeOf? · request part) hquiet).symm.trans hcode

theorem frame_settle (n : Node) (t : Turn) {w : Write Submitter} (hw : w.place = t.place) :
    Frame [t] n (n.settle t w) := by
  have happly : Frame [t] n { n with store := (n.store.counted.apply w).1 } := by
    refine ⟨rfl, rfl, n.store.counted.apply_held w, rfl, rfl, ⟨0, rfl⟩, rfl, ?_, fun _ _ _ => rfl⟩
    intro place hplace
    have hne : place ≠ w.place := fun h => hplace t (List.mem_singleton_self t) (by rw [h, hw])
    exact n.store.counted.get?_parts_apply_of_ne w hne
  exact (happly.trans (frame_report _ t _)).mono (by simp)

/-- A turn on a node that holds no writes back keeps to its partition and its request. -/
theorem frame_work {n : Node} (h : n.store.held = none) (t : Turn) : Frame [t] n (n.work t) := by
  have hplanned := n.frame_planned t
  refine Frame.of_quiet ?_ (quiet_work_of_not_held h)
  cases n.verdict t with
  | refused e => exact hplanned.trans (frame_report _ t _)
  | write change edges hold =>
    by_cases hlost : n.losesNext = true
    · simp only [if_pos hlost]
      have hgone : Frame [t] (n.planned t) { n.planned t with losesNext := false } :=
        ⟨rfl, rfl, rfl, rfl, rfl, ⟨0, rfl⟩, rfl, fun _ _ => rfl, fun _ _ _ => rfl⟩
      exact hplanned.trans hgone
    · simp only [if_neg hlost]
      exact hplanned.trans (frame_settle _ t rfl)

theorem frame_workAll {n : Node} (h : n.store.held = none) (ts : List Turn) :
    Frame ts n (n.workAll ts) := by
  induction ts generalizing n with
  | nil => exact .refl n
  | cons t ts ih =>
    have hwork := frame_work h t
    exact hwork.trans (ih (hwork.held.trans h))

/-- The numbers that one node has drawn up to another one. -/
def drawnUntil (n m : Node) : List UInt64 :=
  (n.sequencer.drawMany (m.sequencer.drawn - n.sequencer.drawn)).1

theorem drawnUntil_of_eq {n m : Node} {k : Nat}
    (h : m.sequencer = (n.sequencer.drawMany k).2) :
    n.drawnUntil m = (n.sequencer.drawMany k).1 := by
  rw [drawnUntil, h, Sequencer.drawn_drawMany, Nat.add_sub_cancel_left]

/-- The numbers drawn ascend as long as they do not run out. -/
theorem drawnUntil_ascending {n m : Node}
    (hbelow : ∀ x ∈ (n.drawnUntil m).dropLast, x ≠ 0xffffffffffffffff) :
    (n.drawnUntil m).Pairwise (· < ·) := Sequencer.drawMany_ascending hbelow

/-! ### The outcome of a turn -/

/-- What is reported in the turn of a partition that has not reported yet. -/
theorem codeOf?_work {n : Node} {t : Turn} (hheld : n.store.held = none)
    (hlen : t.request < n.requests.length) (hnone : n.codeOf? t.request t.place.part = none) :
    (n.work t).codeOf? t.request t.place.part =
      match n.verdict t with
      | .refused e => some e.code
      | .write change edges hold =>
        if n.losesNext then none
        else some (outcomeCode
          ((n.planned t).store.counted.apply (t.write change edges hold)).2.result) := by
  have hplanned := n.frame_planned t
  have hlen : t.request < (n.planned t).requests.length := hplanned.requests.symm ▸ hlen
  have hnone : (n.planned t).codeOf? t.request t.place.part = none :=
    (hplanned.codes _ _ (by simp)).trans hnone
  refine (congrArg (Node.codeOf? · t.request t.place.part) (quiet_work_of_not_held hheld)).trans ?_
  show Node.codeOf? (match n.verdict t with | .refused e => _ | .write change edges hold => _) _ _
    = _
  cases n.verdict t with
  | refused e => simp only [codeOf?_report_self hlen, hnone, Option.getD_none]
  | write change edges hold =>
    by_cases hlost : n.losesNext = true
    · simp only [if_pos hlost]
      exact hnone
    · simp only [if_neg hlost]
      refine (codeOf?_report_self ?_ ..).trans ?_
      · exact hlen
      · exact congrArg (fun first => some (Option.getD first _)) hnone

theorem store_work {n : Node} {t : Turn} (hheld : n.store.held = none) :
    (n.work t).store =
      match n.verdict t with
      | .refused _ => (n.planned t).store
      | .write change edges hold =>
        if n.losesNext then (n.planned t).store
        else ((n.planned t).store.counted.apply (t.write change edges hold)).1 := by
  show (n.work t).quiet.store = _
  rw [quiet_work_of_not_held hheld]
  cases n.verdict t with
  | refused e => exact store_report ..
  | write change edges hold =>
    by_cases hlost : n.losesNext = true
    · simp only [if_pos hlost]
      rfl
    · simp only [if_neg hlost]
      exact store_report ..

/-- Numbers are drawn for the plan only. -/
theorem sequencer_work (n : Node) (t : Turn) :
    (n.work t).sequencer = (n.planned t).sequencer := by
  refine (congrArg (·.sequencer) (n.quiet_work t)).trans ?_
  cases n.verdict t with
  | refused e => exact sequencer_report ..
  | write change edges hold =>
    refine (sequencer_submitPart ..).trans ?_
    cases hold <;> rfl

/-! ### Requests -/

/-- The failure of a whole request changes the reports at most. -/
theorem quiet_failAll (n : Node) (request : Nat) (parts : List PartId) (code : ResultCode) :
    ∃ requests, (n.failAll request parts code).quiet = { n.quiet with requests := requests } := by
  induction parts generalizing n with
  | nil => exact ⟨n.requests, rfl⟩
  | cons part parts ih =>
    obtain ⟨requests, hrequests⟩ := ih (n.report request part code)
    refine ⟨requests, ?_⟩
    rw [failAll, List.foldl_cons, ← failAll, hrequests, quiet_report]

theorem codeOf?_failAll {n : Node} {request : Nat} (h : request < n.requests.length)
    (parts : List PartId) (code : ResultCode) (part : PartId) :
    (n.failAll request parts code).codeOf? request part
      = if part ∈ parts then some ((n.codeOf? request part).getD code)
        else n.codeOf? request part := by
  induction parts generalizing n with
  | nil => simp [failAll]
  | cons p parts ih =>
    have hlen : request < (n.report request p code).requests.length := by
      rw [(n.frame_report ⟨request, ⟨0, p⟩, 0, [], []⟩ code).requests]
      exact h
    rw [failAll, List.foldl_cons, ← failAll, ih hlen]
    by_cases hp : part = p
    · subst hp
      simp [codeOf?_report_self h]
    · rw [codeOf?_report_of_ne n (fun _ => Ne.symm hp)]
      simp [hp]

theorem length_requests_arrived (n : Node) (r : DeleteRequest) :
    (n.arrived r).requests.length = n.requests.length + 1 := by
  rw [arrived, List.length_append]
  rfl

theorem codeOf?_arrived (n : Node) (r : DeleteRequest) (part : PartId) :
    (n.arrived r).codeOf? n.requests.length part = none := by
  simp [codeOf?, arrived]

/-- A request that fails as a whole changes nothing but the reports. -/
theorem process_of_error {n : Node} {r : DeleteRequest} {e : DeleteError}
    (hturns : n.turns r = .error e) :
    (n.process r).2.store = n.store ∧ (n.process r).2.markers = n.markers ∧
      (n.process r).2.locks = n.locks ∧ (n.process r).2.inflight = n.inflight := by
  obtain ⟨requests, hfail⟩ := (n.arrived r).quiet_failAll n.requests.length r.parts.keys e.code
  have hprocess : (n.process r).2.quiet = { (n.arrived r).quiet with requests := requests } := by
    rw [quiet_process, hturns]
    exact hfail
  exact ⟨congrArg (·.store) hprocess, congrArg (·.markers) hprocess, congrArg (·.locks) hprocess,
    congrArg (·.inflight) hprocess⟩

theorem codeOf?_process_of_error {n : Node} {r : DeleteRequest} {e : DeleteError}
    (hturns : n.turns r = .error e) {part : PartId} (hpart : part ∈ r.parts.keys) :
    (n.process r).2.codeOf? n.requests.length part = some e.code := by
  have hcode := codeOf?_failAll (n := n.arrived r)
    (by rw [length_requests_arrived]; exact Nat.lt_succ_self _) r.parts.keys e.code part
  rw [if_pos hpart, codeOf?_arrived] at hcode
  have hquiet := n.quiet_process r
  rw [hturns] at hquiet
  exact (congrArg (Node.codeOf? · n.requests.length part) hquiet).trans hcode

/-- What the turns of a request are. -/
theorem eq_of_turns {n : Node} {r : DeleteRequest} {ts : List Turn} (h : n.turns r = .ok ts) :
    ∃ vidLen indexes, n.catalog.vidLen r.space = .ok vidLen ∧
      (n.indexCatalog.getD n.catalog).edgeIndexes r.space = .ok indexes ∧
      ts = r.parts.entries.map fun p =>
        ⟨n.requests.length, ⟨r.space, p.1⟩, vidLen, indexes, p.2⟩ := by
  rw [turns] at h
  cases hvidLen : n.catalog.vidLen r.space with
  | error e => simp [hvidLen] at h
  | ok vidLen =>
    cases hindexes : (n.indexCatalog.getD n.catalog).edgeIndexes r.space with
    | error e => simp [hvidLen, hindexes] at h
    | ok indexes =>
      simp only [hvidLen, hindexes, Except.ok.injEq] at h
      exact ⟨vidLen, indexes, rfl, rfl, h.symm⟩

/-- A request has its turns if its space is known. -/
theorem exists_turns {n : Node} {r : DeleteRequest} {vidLen : Nat} {indexes : List Index}
    (hvidLen : n.catalog.vidLen r.space = .ok vidLen)
    (hindexes : (n.indexCatalog.getD n.catalog).edgeIndexes r.space = .ok indexes) :
    ∃ ts, n.turns r = .ok ts := by
  rw [turns, hvidLen, hindexes]
  exact ⟨_, rfl⟩

theorem mem_turns {n : Node} {r : DeleteRequest} {ts : List Turn} {t : Turn}
    (hturns : n.turns r = .ok ts) (ht : t ∈ ts) :
    t.request = n.requests.length ∧ t.place.space = r.space ∧
      (t.place.part, t.edges) ∈ r.parts.entries := by
  obtain ⟨vidLen, indexes, -, -, rfl⟩ := eq_of_turns hturns
  obtain ⟨p, hp, rfl⟩ := List.mem_map.1 ht
  exact ⟨rfl, rfl, hp⟩

theorem turns_ascending {n : Node} {r : DeleteRequest} {ts : List Turn}
    (hturns : n.turns r = .ok ts) : ts.Pairwise fun t t' => t.place.part < t'.place.part := by
  obtain ⟨vidLen, indexes, -, -, rfl⟩ := eq_of_turns hturns
  exact List.pairwise_map.2 r.ascending

/-- The turn of a partition stands between those of the partitions below and above. -/
theorem turns_split {n : Node} {r : DeleteRequest} {part : PartId} {edges : List Edge}
    {ts : List Turn} (hturns : n.turns r = .ok ts) (hpart : (part, edges) ∈ r.parts.entries) :
    ∃ front rest vidLen indexes,
      ts = front ++ ⟨n.requests.length, ⟨r.space, part⟩, vidLen, indexes, edges⟩ :: rest ∧
      n.catalog.vidLen r.space = .ok vidLen ∧
      (n.indexCatalog.getD n.catalog).edgeIndexes r.space = .ok indexes ∧
      (∀ t' ∈ front, t'.place.part < part) ∧ ∀ t' ∈ rest, part < t'.place.part := by
  have hascend := turns_ascending hturns
  obtain ⟨vidLen, indexes, hvidLen, hindexes, rfl⟩ := eq_of_turns hturns
  obtain ⟨before, after, hsplit⟩ := List.append_of_mem hpart
  rw [hsplit, List.map_append, List.map_cons] at hascend ⊢
  obtain ⟨-, hrest, hfront⟩ := List.pairwise_append.1 hascend
  exact ⟨_, _, vidLen, indexes, rfl, hvidLen, hindexes,
    fun t' ht' => hfront t' ht' _ (List.mem_cons_self ..), (List.pairwise_cons.1 hrest).1⟩

/-- A request seen from one of its turns: the turns before it keep to their partitions, and so do
those after it. -/
theorem frame_process {n : Node} {r : DeleteRequest} {ts front rest : List Turn} {t : Turn}
    (hheld : n.store.held = none) (hturns : n.turns r = .ok ts) (hts : ts = front ++ t :: rest) :
    Frame front (n.arrived r) ((n.arrived r).workAll front) ∧
      Frame rest (((n.arrived r).workAll front).work t) (n.process r).2 := by
  have hfront := frame_workAll (n := n.arrived r) hheld front
  have hturn := frame_work (hfront.held.trans hheld) t
  have hrest := frame_workAll (hturn.held.trans (hfront.held.trans hheld)) rest
  refine ⟨hfront, hrest.of_quiet ?_⟩
  rw [quiet_process, hturns, hts]
  simp only [workAll, List.foldl_append, List.foldl_cons]

/-! ### The turn of a partition -/

/-- The node when those partitions of a request had their turns that pass a test. -/
def reached (n : Node) (r : DeleteRequest) (p : PartId → Bool) : Node :=
  match n.turns r with
  | .error _ => n.arrived r
  | .ok ts => (n.arrived r).workAll (ts.filter fun t => p t.place.part)

/-- The turn of a partition, if there is one. -/
def turnOf? (n : Node) (r : DeleteRequest) (part : PartId) : Option Turn :=
  match n.turns r with
  | .error _ => none
  | .ok ts => ts.find? fun t => t.place.part == part

/-- The turns up to a partition, with and without its own. -/
theorem reached_split {n : Node} {r : DeleteRequest} {part : PartId} {ts front rest : List Turn}
    {t : Turn} (hturns : n.turns r = .ok ts) (hts : ts = front ++ t :: rest)
    (ht : t.place.part = part) (hbelow : ∀ t' ∈ front, t'.place.part < part)
    (habove : ∀ t' ∈ rest, part < t'.place.part) :
    n.turnOf? r part = some t ∧
      n.reached r (· < part) = (n.arrived r).workAll front ∧
      n.reached r (· ≤ part) = ((n.arrived r).workAll front).work t := by
  -- no turn but this one is of the partition
  have hfind : ts.find? (fun t' => t'.place.part == part) = some t := by
    have hfront : front.find? (fun t' => t'.place.part == part) = none := by
      rw [List.find?_eq_none]
      intro t' h
      simpa using UInt32.ne_of_lt (hbelow t' h)
    rw [hts, List.find?_append, hfront, List.find?_cons_of_pos (by simp [ht])]
    rfl
  -- the turns that pass the tests are those in front, without and with this one
  have hlt : ts.filter (fun t' => decide (t'.place.part < part)) = front := by
    have hrest : rest.filter (fun t' => decide (t'.place.part < part)) = [] := by
      rw [List.filter_eq_nil_iff]
      intro t' h
      simpa using UInt32.le_of_lt (habove t' h)
    rw [hts, List.filter_append, List.filter_cons_of_neg (by simp [ht]), hrest, List.append_nil,
      List.filter_eq_self]
    intro t' h
    simpa using hbelow t' h
  have hle : ts.filter (fun t' => decide (t'.place.part ≤ part)) = front ++ [t] := by
    have hrest : rest.filter (fun t' => decide (t'.place.part ≤ part)) = [] := by
      rw [List.filter_eq_nil_iff]
      intro t' h
      simpa using habove t' h
    rw [hts, List.filter_append, List.filter_cons_of_pos (by simp [ht]), hrest,
      List.filter_eq_self.2]
    intro t' h
    simpa using UInt32.le_of_lt (hbelow t' h)
  refine ⟨?_, ?_, ?_⟩
  · rw [turnOf?, hturns]
    exact hfind
  · rw [reached, hturns]
    exact congrArg _ hlt
  · rw [reached, hturns]
    refine (congrArg (n.arrived r).workAll hle).trans ?_
    rw [workAll, List.foldl_append]
    rfl

/-- The turn of a partition, seen from the request that it belongs to. -/
structure AtTurn (n : Node) (r : DeleteRequest) (t : Turn) (m : Node) : Prop where
  held : m.store.held = none
  listed : t.request < m.requests.length
  /-- The partition has not reported yet. -/
  silent : m.codeOf? t.request t.place.part = none
  scene : m.scene t = n.scene t
  /-- The contents of the partition are those before the request. -/
  before : m.store.parts.get? t.place = n.store.parts.get? t.place
  /-- They are not changed again after the turn. -/
  after : (n.process r).2.store.parts.get? t.place = (m.work t).store.parts.get? t.place
  code : (n.process r).2.codeOf? t.request t.place.part
    = (m.work t).codeOf? t.request t.place.part
  locks : (n.process r).2.locks = n.locks
  inflight : (n.process r).2.inflight = n.inflight
  drawn : ∃ i, m.sequencer = (n.sequencer.drawMany i).2
  drawnAfter : ∃ j, (n.process r).2.sequencer = ((m.work t).sequencer.drawMany j).2

/-- Each partition of a request has its turn. -/
theorem atTurn_of_mem {n : Node} {r : DeleteRequest} {part : PartId} {edges : List Edge}
    {ts : List Turn} (hheld : n.store.held = none) (hturns : n.turns r = .ok ts)
    (hpart : (part, edges) ∈ r.parts.entries) :
    ∃ vidLen indexes, n.catalog.vidLen r.space = .ok vidLen ∧
      (n.indexCatalog.getD n.catalog).edgeIndexes r.space = .ok indexes ∧
      n.turnOf? r part = some ⟨n.requests.length, ⟨r.space, part⟩, vidLen, indexes, edges⟩ ∧
      n.reached r (· ≤ part) = (n.reached r (· < part)).work
        ⟨n.requests.length, ⟨r.space, part⟩, vidLen, indexes, edges⟩ ∧
      AtTurn n r ⟨n.requests.length, ⟨r.space, part⟩, vidLen, indexes, edges⟩
        (n.reached r (· < part)) := by
  obtain ⟨front, rest, vidLen, indexes, hts, hvidLen, hindexes, hbelow, habove⟩ :=
    turns_split hturns hpart
  obtain ⟨hturn, hlt, hle⟩ := reached_split hturns hts rfl hbelow habove
  obtain ⟨hfront, hrest⟩ := frame_process hheld hturns hts
  refine ⟨vidLen, indexes, hvidLen, hindexes, hturn, hle.trans (by rw [hlt]), ?_⟩
  rw [hlt]
  generalize (n.arrived r).workAll front = m at hfront hrest
  have hfrontPart : ∀ t' ∈ front, t'.place.part ≠ part := fun t' h =>
    UInt32.ne_of_lt (hbelow t' h)
  have hrestPart : ∀ t' ∈ rest, t'.place.part ≠ part := fun t' h =>
    (UInt32.ne_of_lt (habove t' h)).symm
  -- what the other turns leave alone is seen from both sides of this one
  have hmheld : m.store.held = none := hfront.held.trans hheld
  have hwork := frame_work hmheld ⟨n.requests.length, ⟨r.space, part⟩, vidLen, indexes, edges⟩
  constructor
  · exact hmheld
  · rw [hfront.requests, length_requests_arrived]
    exact Nat.lt_succ_self _
  · rw [hfront.codes _ _ fun t' h _ => hfrontPart t' h]
    exact n.codeOf?_arrived r part
  · rw [scene, hfront.catalog, hfront.markers, hfront.inflight]
    rfl
  · exact hfront.parts _ fun t' h heq => hfrontPart t' h (by rw [heq])
  · exact hrest.parts _ fun t' h heq => hrestPart t' h (by rw [heq])
  · exact hrest.codes _ _ fun t' h _ => hrestPart t' h
  · exact hrest.locks.trans (hwork.locks.trans hfront.locks)
  · exact hrest.inflight.trans (hwork.inflight.trans hfront.inflight)
  · exact hfront.draws
  · exact hrest.draws

/-- The numbers that are drawn in a turn are some of those that are drawn in its request. -/
theorem AtTurn.sublist_drawn {n m : Node} {r : DeleteRequest} {t : Turn} (hat : AtTurn n r t m)
    {k : Nat} (hk : (m.work t).sequencer = (m.sequencer.drawMany k).2) :
    (m.sequencer.drawMany k).1.Sublist (n.drawnUntil (n.process r).2) := by
  obtain ⟨i, hi⟩ := hat.drawn
  obtain ⟨j, hj⟩ := hat.drawnAfter
  have hsum : (n.process r).2.sequencer = (n.sequencer.drawMany (i + (k + j))).2 := by
    rw [Sequencer.drawMany_add, Sequencer.drawMany_add, ← hi, hj, hk]
  rw [drawnUntil_of_eq hsum, Sequencer.drawMany_add, Sequencer.drawMany_add, ← hi]
  exact (List.sublist_append_left ..).trans (List.sublist_append_right ..)

end Node

end EdgeDeletion
