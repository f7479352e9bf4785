/-
The reports that a request has gathered.

The first report of a partition is its code (`code?_report`): later ones change nothing.
The answer to a request is complete with the last report (`Gathers.report`), and it has the
partitions in order (`inOrder_parts`).
-/
import EdgeDeletion.Delete.Request
import Mathlib.Data.List.Nodup
import Mathlib.Data.List.Sort

namespace EdgeDeletion

/-- Whether an event is the signal of a failure. -/
def Event.isFailure : Event → Bool
  | .signal .failure => true
  | _ => false

namespace Collector

/-- The code that a partition has reported. -/
def code? (c : Collector) (part : PartId) : Option ResultCode :=
  (c.reports.find? fun r => r.part == part).map (·.code)

theorem finish_reports (c : Collector) (now : UInt64) : (c.finish now).1.reports = c.reports := by
  unfold finish
  split <;> rfl

@[simp] theorem code?_start (expected : Nat) (now : UInt64) (part : PartId) :
    (start expected now).1.code? part = none := by
  rw [start, code?, finish_reports]
  rfl

theorem any_reports_iff (c : Collector) (part : PartId) :
    (c.reports.any fun r => r.part == part) = (c.code? part).isSome := by
  rw [code?, Option.isSome_map, List.isSome_find?]

/-- The first report of a partition is its code. -/
theorem code?_report (c : Collector) (now : UInt64) (part part' : PartId) (code : ResultCode) :
    (c.report now part code).1.code? part'
      = if part' = part then some ((c.code? part).getD code) else c.code? part' := by
  rw [report, any_reports_iff]
  cases hcode : c.code? part with
  | some first =>
    by_cases hpart : part' = part
    · subst hpart
      simp [hcode]
    · simp [hpart]
  | none =>
    have hnone : c.reports.find? (fun r => r.part == part) = none := by
      simpa [code?] using hcode
    simp only [Option.isSome_none, Bool.false_eq_true, if_false, Option.getD_none]
    rw [code?, finish_reports, add, List.find?_append]
    by_cases hpart : part' = part
    · subst hpart
      simp [hnone]
    · have hne : (part == part') = false := by simpa using Ne.symm hpart
      simp [code?, hpart, hne]

/-! ### The answer -/

/-- A collector has gathered reports, and its answer is complete if they are as many as are
expected.  The answer has taken up the first ones. -/
structure Gathers (c : Collector) (expected : Nat) (reports : List PartResult) : Prop where
  expects : c.expected = expected
  gathered : c.reports = reports
  complete : expected ≤ reports.length → c.pending = reports.drop expected ∧
    ∃ latency, c.response = some ⟨inOrder (reports.take expected), latency⟩
  incomplete : reports.length < expected → c.pending = reports ∧ c.response = none

variable {c : Collector} {expected : Nat} {reports : List PartResult}

/-- An answer that is complete is not completed again. -/
theorem finish_of_response {response : DeleteResponse} (h : c.response = some response)
    (now : UInt64) : c.finish now = (c, []) := by
  rw [finish, if_pos (.inl (by rw [h]; rfl))]

theorem gathers_finish (hexpected : c.expected = expected) (hreports : c.reports = reports)
    (hpending : c.pending = reports) (hopen : c.response = none)
    (hroom : reports.length ≤ expected) (now : UInt64) :
    (c.finish now).1.Gathers expected reports := by
  rw [finish, hopen, hexpected, hpending]
  by_cases hlen : reports.length = expected
  · rw [if_neg (by simp [hlen])]
    refine ⟨rfl, hreports, fun _ => ?_, fun hlt => absurd hlen (Nat.ne_of_lt hlt)⟩
    rw [← hlen, List.drop_length, List.take_length]
    exact ⟨rfl, _, rfl⟩
  · rw [if_pos (.inr hlen)]
    exact ⟨hexpected, hreports, fun hle => absurd (Nat.le_antisymm hroom hle) hlen,
      fun _ => ⟨hpending, hopen⟩⟩

theorem gathers_start (expected : Nat) (now : UInt64) :
    (start expected now).1.Gathers expected [] :=
  gathers_finish rfl rfl rfl rfl (Nat.zero_le _) now

theorem any_part_eq_false {part : PartId} (hnew : part ∉ reports.map (·.part)) :
    (reports.any fun r => r.part == part) = false := by
  rw [List.any_eq_false]
  intro r hr heq
  exact hnew (List.mem_map.2 ⟨r, hr, by simpa using heq⟩)

/-- The report of another partition is gathered.  With the last one that is expected the answer is
complete, and those that come after it only wait. -/
theorem Gathers.report (h : c.Gathers expected reports) {part : PartId}
    (hnew : part ∉ reports.map (·.part)) (now : UInt64) (code : ResultCode) :
    (c.report now part code).1.Gathers expected (reports ++ [⟨part, code⟩]) := by
  rw [Collector.report, h.gathered, any_part_eq_false hnew, if_neg Bool.false_ne_true]
  show ((c.add ⟨part, code⟩).finish now).1.Gathers _ _
  have hreports : (c.add ⟨part, code⟩).reports = reports ++ [⟨part, code⟩] := by
    rw [add, h.gathered]
  -- behind a complete answer the pending reports may be as many as are expected once more, but
  -- there is nothing left to complete
  rcases Nat.lt_or_ge reports.length expected with hlt | hge
  · obtain ⟨hpending, hopen⟩ := h.incomplete hlt
    have hadded : (c.add ⟨part, code⟩).pending = reports ++ [⟨part, code⟩] :=
      congrArg (· ++ _) hpending
    refine gathers_finish (c := c.add ⟨part, code⟩) h.expects hreports hadded hopen ?_ now
    rw [List.length_append]
    exact hlt
  · obtain ⟨hpending, latency, hdone⟩ := h.complete hge
    rw [finish_of_response (c := c.add ⟨part, code⟩) hdone]
    refine ⟨h.expects, hreports, fun _ => ⟨?_, latency, ?_⟩, fun hlt => ?_⟩
    · rw [add, hpending, List.drop_append_of_le_length hge]
    · rw [List.take_append_of_le_length hge]
      exact hdone
    · rw [List.length_append] at hlt
      omega

theorem finish_events (c : Collector) (now : UInt64) :
    (c.finish now).2.countP Event.isFailure = 0 := by
  rw [finish]
  split <;> rfl

/-- The report of another partition signals a failure if it is none of success. -/
theorem report_events {part : PartId} (hnew : part ∉ c.reports.map (·.part)) (now : UInt64)
    (code : ResultCode) :
    (c.report now part code).2.countP Event.isFailure = (!code.isOk).toNat := by
  rw [Collector.report, any_part_eq_false hnew, if_neg Bool.false_ne_true]
  simp only [List.countP_append, finish_events]
  cases code.isOk <;> rfl

/-- An answer that is complete is not changed any more. -/
theorem response_report {response : DeleteResponse} (h : c.response = some response)
    (now : UInt64) (part : PartId) (code : ResultCode) :
    (c.report now part code).1.response = some response := by
  rw [Collector.report]
  split
  · exact h
  · show ((c.add ⟨part, code⟩).finish now).1.response = some response
    rw [finish_of_response (c := c.add ⟨part, code⟩) h]
    exact h

/-- Results in order are ascending by partition. -/
theorem inOrder_ascending (reports : List PartResult) :
    (inOrder reports).Pairwise fun a b => a.part ≤ b.part := by
  have hmerge : (inOrder reports).Pairwise fun a b => decide (a.part ≤ b.part) = true :=
    List.pairwise_mergeSort
      (fun a b c hab hbc => by
        simp only [decide_eq_true_eq] at *
        exact UInt32.le_trans hab hbc)
      (fun a b => by
        simpa using UInt32.le_total a.part b.part) reports
  exact hmerge.imp fun h => by simpa using h

/-- Results in order have each partition once, ascending. -/
theorem inOrder_parts {parts : List PartId} (hordered : parts.Pairwise (· < ·))
    (hperm : (reports.map (·.part)).Perm parts) : (inOrder reports).map (·.part) = parts := by
  have hparts : ((inOrder reports).map (·.part)).Perm parts :=
    ((List.mergeSort_perm reports _).map _).trans hperm
  refine hparts.eq_of_pairwise (fun a b _ _ => UInt32.le_antisymm)
    (List.pairwise_map.2 (inOrder_ascending reports)) (hordered.imp UInt32.le_of_lt)

end Collector

end EdgeDeletion
