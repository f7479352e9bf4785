/-
The first report of each partition wins.

A collector may be told about a partition again and again, and about more partitions than
it expects.  What it makes of a list of reports is given by the first report of each
partition in it (`firsts`): the answer is complete as soon as these are as many as are
expected, and consists of them, however many reports follow.

* `firsts_concat` — what one more report adds to the first ones;
* `gathers_gather` — a collector has gathered the first reports;
* `latencies_gather`, `failures_gather` — what it has signalled;
* `completes_iff` — the report that completes the answer;
* `first_reports_win` — the answer, the latency and the failure counter after any reports.
-/
import EdgeDeletion.Proofs.Answers

namespace EdgeDeletion

/-- The latency that an event signals. -/
def Event.latency? : Event → Option UInt64
  | .signal (.latency micros) => some micros
  | _ => none

/-! ### First reports -/

/-- The first result of each partition, in order of arrival. -/
def firsts : List PartResult → List PartResult
  | [] => []
  | r :: rs => r :: (firsts rs).filter (·.part != r.part)

variable {r : PartResult} {rs : List PartResult}

theorem mem_parts_firsts {part : PartId} :
    part ∈ (firsts rs).map (·.part) ↔ part ∈ rs.map (·.part) := by
  induction rs with
  | nil => rfl
  | cons a rs ih =>
    by_cases hpart : part = a.part
    · simp [firsts, hpart]
    · -- the filter takes away results of another partition only
      have hfilter : part ∈ ((firsts rs).filter (·.part != a.part)).map (·.part) ↔
          part ∈ (firsts rs).map (·.part) := by
        simp only [List.mem_map, List.mem_filter, bne_iff_ne]
        constructor
        · rintro ⟨b, ⟨hb, -⟩, rfl⟩
          exact ⟨b, hb, rfl⟩
        · rintro ⟨b, hb, rfl⟩
          exact ⟨b, ⟨hb, hpart⟩, rfl⟩
      simp only [firsts, List.map_cons, List.mem_cons, hpart, false_or, hfilter, ih]

theorem nodup_parts_firsts (rs : List PartResult) : ((firsts rs).map (·.part)).Nodup := by
  induction rs with
  | nil => exact .nil
  | cons a rs ih =>
    refine List.nodup_cons.2 ⟨?_, ih.sublist (List.filter_sublist.map _)⟩
    intro hmem
    obtain ⟨b, hb, heq⟩ := List.mem_map.1 hmem
    exact absurd heq (by simpa using (List.mem_filter.1 hb).2)

/-- The first results are those that are found under their partition. -/
theorem mem_firsts_iff : r ∈ firsts rs ↔ rs.find? (·.part == r.part) = some r := by
  induction rs with
  | nil => simp [firsts]
  | cons a rs ih =>
    rw [firsts, List.mem_cons, List.mem_filter, ih]
    by_cases hpart : a.part = r.part
    · simp [hpart, eq_comm]
    · have hne : r ≠ a := fun heq => hpart (congrArg PartResult.part heq).symm
      simp [hpart, Ne.symm hpart, hne]

/-- A partition that was not heard of yet adds a first result; one that was adds nothing. -/
theorem firsts_concat (rs : List PartResult) (r : PartResult) :
    firsts (rs ++ [r]) =
      if r.part ∈ rs.map (·.part) then firsts rs else firsts rs ++ [r] := by
  induction rs with
  | nil => rfl
  | cons a rs ih =>
    rw [List.cons_append, firsts, ih]
    by_cases hmem : r.part ∈ rs.map (·.part)
    · have hcons : r.part ∈ (a :: rs).map (·.part) := List.mem_cons_of_mem _ hmem
      rw [if_pos hmem, if_pos hcons, firsts]
    · rw [if_neg hmem, List.filter_append]
      by_cases hpart : r.part = a.part
      · have hcons : r.part ∈ (a :: rs).map (·.part) := List.mem_cons.2 (.inl hpart)
        rw [if_pos hcons]
        simp [firsts, hpart]
      · have hcons : r.part ∉ (a :: rs).map (·.part) := by
          intro hcons
          exact (List.mem_cons.1 hcons).elim hpart hmem
        rw [if_neg hcons]
        simp [firsts, hpart]

/-- There are no more partitions than numbers for them. -/
theorem length_firsts_le (rs : List PartResult) : (firsts rs).length ≤ 2 ^ 32 := by
  -- their numbers are different members of a range
  have hnodup : ((firsts rs).map (·.part.toNat)).Nodup := by
    have hmap : (firsts rs).map (·.part.toNat) = ((firsts rs).map (·.part)).map UInt32.toNat := by
      rw [List.map_map]
      rfl
    rw [hmap]
    exact (nodup_parts_firsts rs).map fun a b => UInt32.toNat_inj.1
  have hsubset : (firsts rs).map (·.part.toNat) ⊆ List.range (2 ^ 32) := by
    intro k hk
    obtain ⟨a, -, rfl⟩ := List.mem_map.1 hk
    exact List.mem_range.2 a.part.toNat_lt
  have hle := (List.subperm_of_subset hnodup hsubset).length_le
  rwa [List.length_map, List.length_range] at hle

namespace Collector

/-! ### What a collector makes of reports -/

/-- A collector that takes one report after the other, each at its moment, and all that it
notes. -/
def gather (expected : Nat) (arrival : UInt64) (reports : List (UInt64 × PartResult)) :
    Collector × List Event :=
  reports.foldl
    (fun s r =>
      let (c, events) := s.1.report r.1 r.2.part r.2.code
      (c, s.2 ++ events))
    (start expected arrival)

variable {c : Collector} {expected : Nat} {arrival : UInt64}

theorem gather_concat (reports : List (UInt64 × PartResult)) (now : UInt64) (r : PartResult) :
    gather expected arrival (reports ++ [(now, r)]) =
      (((gather expected arrival reports).1.report now r.part r.code).1,
        (gather expected arrival reports).2 ++
          ((gather expected arrival reports).1.report now r.part r.code).2) := by
  rw [gather, List.foldl_append]
  rfl

theorem report_of_heard {part : PartId} (h : part ∈ c.reports.map (·.part)) (now : UInt64)
    (code : ResultCode) : c.report now part code = (c, [.log (.duplicateReport part code)]) := by
  obtain ⟨r, hr, rfl⟩ := List.mem_map.1 h
  exact report_of_mem hr now code

/-- A collector has gathered the first reports. -/
theorem gathers_gather (expected : Nat) (arrival : UInt64)
    (reports : List (UInt64 × PartResult)) :
    (gather expected arrival reports).1.Gathers expected (firsts (reports.map (·.2))) := by
  induction reports using List.reverseRecOn with
  | nil => exact gathers_start expected arrival
  | append_singleton reports last ih =>
    obtain ⟨now, r⟩ := last
    rw [gather_concat, List.map_append, List.map_singleton, firsts_concat]
    -- whether the partition was heard of is asked of the collector, which knows the first reports
    by_cases hheard : r.part ∈ (reports.map (·.2)).map (·.part)
    · have hmem := mem_parts_firsts.2 hheard
      rw [← ih.gathered] at hmem
      rw [if_pos hheard, report_of_heard hmem]
      exact ih
    · rw [if_neg hheard]
      exact ih.report (fun hmem => hheard (mem_parts_firsts.1 hmem)) now r.code

/-! ### Signals -/

/-- A latency is signalled with the answer, when that gets complete. -/
theorem latencies_finish (c : Collector) (now : UInt64) :
    (c.response.map (·.latency)).toList ++ (c.finish now).2.filterMap Event.latency? =
      ((c.finish now).1.response.map (·.latency)).toList := by
  rw [finish]
  split
  · exact List.append_nil _
  · rename_i hopen
    have hnone : c.response = none := by simpa using (not_or.1 hopen).1
    rw [hnone]
    rfl

theorem latencies_report (c : Collector) (now : UInt64) (part : PartId) (code : ResultCode) :
    (c.response.map (·.latency)).toList ++ (c.report now part code).2.filterMap Event.latency? =
      ((c.report now part code).1.response.map (·.latency)).toList := by
  rw [report]
  split
  · exact List.append_nil _
  · have hfailure : (if code.isOk then [] else [Event.signal .failure]).filterMap
        Event.latency? = [] := by
      cases code.isOk <;> rfl
    show _ ++ (_ ++ ((c.add ⟨part, code⟩).finish now).2).filterMap Event.latency? = _
    rw [List.filterMap_append, hfailure, List.nil_append]
    exact latencies_finish (c.add ⟨part, code⟩) now

/-- One latency has been signalled if the answer is complete, and none if it is not. -/
theorem latencies_gather (reports : List (UInt64 × PartResult)) :
    (gather expected arrival reports).2.filterMap Event.latency? =
      ((gather expected arrival reports).1.response.map (·.latency)).toList := by
  induction reports using List.reverseRecOn with
  | nil => exact latencies_finish ⟨expected, arrival, [], [], none⟩ arrival
  | append_singleton reports last ih =>
    obtain ⟨now, r⟩ := last
    rw [gather_concat, List.filterMap_append, ih]
    exact latencies_report ..

/-- A failure has been signalled for each first report that is no success. -/
theorem failures_gather (reports : List (UInt64 × PartResult)) :
    (gather expected arrival reports).2.countP Event.isFailure =
      (firsts (reports.map (·.2))).countP fun r => !r.code.isOk := by
  induction reports using List.reverseRecOn with
  | nil => exact finish_events ..
  | append_singleton reports last ih =>
    obtain ⟨now, r⟩ := last
    have hgathered := (gathers_gather expected arrival reports).gathered
    rw [gather_concat, List.countP_append, ih, List.map_append, List.map_singleton, firsts_concat]
    by_cases hheard : r.part ∈ (reports.map (·.2)).map (·.part)
    · have hmem := mem_parts_firsts.2 hheard
      rw [← hgathered] at hmem
      rw [if_pos hheard, report_of_heard hmem]
      rfl
    · rw [if_neg hheard, List.countP_append, List.countP_singleton, report_events]
      · cases r.code.isOk <;> rfl
      · rw [hgathered]
        exact fun hmem => hheard (mem_parts_firsts.1 hmem)

/-! ### The answer -/

theorem response_gather_append {response : DeleteResponse} (reports : List (UInt64 × PartResult))
    (h : (gather expected arrival reports).1.response = some response)
    (more : List (UInt64 × PartResult)) :
    (gather expected arrival (reports ++ more)).1.response = some response := by
  induction more using List.reverseRecOn with
  | nil => rwa [List.append_nil]
  | append_singleton more last ih =>
    obtain ⟨now, r⟩ := last
    rw [← List.append_assoc, gather_concat]
    exact response_report ih now r.part r.code

/-- The answer is complete as soon as as many partitions have reported as are expected. -/
theorem response_gather_eq_none_iff (reports : List (UInt64 × PartResult)) :
    (gather expected arrival reports).1.response = none ↔
      (firsts (reports.map (·.2))).length < expected := by
  have hgathers := gathers_gather expected arrival reports
  refine ⟨fun hopen => ?_, fun hlt => (hgathers.incomplete hlt).2⟩
  by_contra hge
  obtain ⟨-, latency, hdone⟩ := hgathers.complete (Nat.le_of_not_lt hge)
  rw [hopen] at hdone
  simp at hdone

/-- It is the first report of a partition that completes the answer, and all but one of those that
are expected have come before it. -/
theorem completes_iff {reports : List (UInt64 × PartResult)}
    (hopen : (gather expected arrival reports).1.response = none) (now : UInt64) (r : PartResult) :
    (gather expected arrival (reports ++ [(now, r)])).1.response ≠ none ↔
      r.part ∉ reports.map (·.2.part) ∧ (firsts (reports.map (·.2))).length + 1 = expected := by
  have hlt := (response_gather_eq_none_iff reports).1 hopen
  have hparts : (reports.map (·.2)).map (·.part) = reports.map (·.2.part) := List.map_map
  rw [Ne, response_gather_eq_none_iff, List.map_append, List.map_singleton, firsts_concat, hparts]
  by_cases hheard : r.part ∈ reports.map (·.2.part)
  · simp [hheard, hlt]
  · rw [if_neg hheard, List.length_append, List.length_singleton]
    constructor
    · intro hge
      exact ⟨hheard, by omega⟩
    · rintro ⟨-, heq⟩
      omega

/-- An answer consists of the first reports, as many as are expected, ascending by partition. -/
theorem Gathers.answer {reports : List PartResult} {response : DeleteResponse}
    (h : c.Gathers expected reports) (hnodup : (reports.map (·.part)).Nodup)
    (hresponse : c.response = some response) :
    response.results.Perm (reports.take expected) ∧ response.results.length = expected ∧
      response.results.Pairwise fun a b => a.part < b.part := by
  have hge : expected ≤ reports.length := by
    by_contra hlt
    rw [(h.incomplete (Nat.lt_of_not_le hlt)).2] at hresponse
    simp at hresponse
  obtain ⟨-, latency, hdone⟩ := h.complete hge
  obtain rfl := Option.some.inj (hresponse.symm.trans hdone)
  have hperm : (inOrder (reports.take expected)).Perm (reports.take expected) :=
    List.mergeSort_perm ..
  -- the partitions are different, so ascending means strictly ascending
  have hdistinct : (inOrder (reports.take expected)).Pairwise fun a b => a.part ≠ b.part := by
    have htake : ((reports.take expected).map (·.part)).Nodup :=
      hnodup.sublist ((List.take_sublist ..).map _)
    exact List.pairwise_map.1 ((hperm.map _).nodup_iff.2 htake)
  refine ⟨hperm, ?_, ((inOrder_ascending _).and hdistinct).imp ?_⟩
  · rw [hperm.length_eq, List.length_take]
    omega
  · rintro a b ⟨hle, hne⟩
    exact UInt32.lt_of_le_of_ne hle hne

/-- The failure counter has no more failures to count than it can hold. -/
theorem tally_gather (reports : List (UInt64 × PartResult)) {n : Node} (h : n.tally = some 0) :
    (n.emitAll (gather expected arrival reports).2).tally.map UInt64.toNat =
      some ((firsts (reports.map (·.2))).countP fun r => !r.code.isOk) := by
  rw [Node.tally_emitAll, h, failures_gather]
  have hle : (firsts (reports.map (·.2))).countP (fun r => !r.code.isOk) ≤ 2 ^ 32 :=
    Nat.le_trans List.countP_le_length (length_firsts_le _)
  generalize (firsts (reports.map (·.2))).countP (fun r => !r.code.isOk) = count at hle
  have hsmall : count < UInt64.size := by
    have hsize : UInt64.size = 2 ^ 64 := rfl
    omega
  rw [Option.map_some, Option.map_some, UInt64.zero_add, UInt64.toNat_ofNat_of_lt' hsmall]

/-- **The first report of each partition wins.**  Take any expected number and any reports, each at
its moment.  The answer is complete if and only if as many partitions have reported as are
expected: on arrival if none is, and otherwise with the first report of the last of these
partitions.  It consists of their first results, ascending by partition, and no report that follows
changes it.  One latency is signalled when it gets complete, and no other.  The failure counter
grows by the number of partitions whose first report is no success. -/
theorem first_reports_win (expected : Nat) (arrival : UInt64)
    (reports : List (UInt64 × PartResult)) :
    let outcome := gather expected arrival reports
    let results := reports.map (·.2)
    ((firsts results).map (·.part)).Nodup ∧
    (∀ r, r ∈ firsts results ↔ results.find? (·.part == r.part) = some r) ∧
    (outcome.1.response = none ↔ (firsts results).length < expected) ∧
    (outcome.1.response = none → ∀ now r,
      (gather expected arrival (reports ++ [(now, r)])).1.response ≠ none ↔
        r.part ∉ reports.map (·.2.part) ∧ (firsts results).length + 1 = expected) ∧
    (∀ response, outcome.1.response = some response →
      response.results.Perm ((firsts results).take expected) ∧
      response.results.length = expected ∧
      response.results.Pairwise (fun a b => a.part < b.part) ∧
      ∀ more, (gather expected arrival (reports ++ more)).1.response = some response) ∧
    outcome.2.filterMap Event.latency? = (outcome.1.response.map (·.latency)).toList ∧
    ∀ n : Node, n.tally = some 0 →
      (n.emitAll outcome.2).tally.map UInt64.toNat =
        some ((firsts results).countP fun r => !r.code.isOk) := by
  intro outcome results
  have hgathers : outcome.1.Gathers expected (firsts results) :=
    gathers_gather expected arrival reports
  have hnodup := nodup_parts_firsts results
  refine ⟨hnodup, fun r => mem_firsts_iff, response_gather_eq_none_iff reports,
    fun hopen now r => completes_iff hopen now r, ?_, latencies_gather reports,
    fun n htally => tally_gather reports htally⟩
  intro response hresponse
  obtain ⟨hperm, hlen, hascending⟩ := hgathers.answer hnodup hresponse
  exact ⟨hperm, hlen, hascending, response_gather_append reports hresponse⟩

/-- Of two partitions the first one reports twice, and a third one comes too late. -/
example : (gather 2 10 [(11, ⟨2, .dataConflict⟩), (12, ⟨2, .succeeded⟩), (15, ⟨1, .succeeded⟩),
    (16, ⟨3, .invalidSpaceVidLen⟩)]).1.response =
      some ⟨[⟨1, .succeeded⟩, ⟨2, .dataConflict⟩], 5⟩ := by cbv

end Collector

end EdgeDeletion
