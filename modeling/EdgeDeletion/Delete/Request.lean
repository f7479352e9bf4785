/-
Delete requests and their answers.

A request names edges by partition.  Its answer has one result for each of its
partitions, ascending by partition.  A `Collector` gathers the reports of the
partitions; the first report of a partition counts.

* `Collector.report_of_mem` — a second report changes nothing but the trace.
-/
import EdgeDeletion.Delete.Event

namespace EdgeDeletion

/-- The edges to delete from a space, by partition. -/
structure DeleteRequest where
  space : SpaceId
  parts : OrderedMap PartId (List Edge)
deriving Inhabited

namespace DeleteRequest

def empty (space : SpaceId) : DeleteRequest := ⟨space, .empty⟩

/-- Adds edges to a partition, after those it has already. -/
def addPart (r : DeleteRequest) (part : PartId) (edges : List Edge) : DeleteRequest :=
  { r with parts := r.parts.insert part ((r.parts.get? part).getD [] ++ edges) }

end DeleteRequest

/-- The outcome of a partition. -/
structure PartResult where
  part : PartId
  code : ResultCode
deriving DecidableEq, Inhabited

/-- The answer to a request. -/
structure DeleteResponse where
  results : List PartResult
  /-- The microseconds from the arrival of the request to the last report. -/
  latency : UInt64
deriving DecidableEq, Inhabited

namespace DeleteResponse

/-- The code of a partition, if the request has it. -/
def codeFor? (r : DeleteResponse) (part : PartId) : Option ResultCode :=
  (r.results.find? fun p => p.part == part).map (·.code)

/-- The results that are no successes. -/
def failedParts (r : DeleteResponse) : List PartResult := r.results.filter fun p => !p.code.isOk

def allSucceeded (r : DeleteResponse) : Bool := r.failedParts.isEmpty

end DeleteResponse

/-- The reports to a request so far. -/
structure Collector where
  /-- How many partitions have to report. -/
  expected : Nat
  /-- When the request arrived, in microseconds. -/
  started : UInt64
  /-- The first report of each partition, in order of arrival. -/
  reports : List PartResult
  /-- Those of them that no answer has taken up. -/
  pending : List PartResult
  /-- The answer, once it is complete. -/
  response : Option DeleteResponse
deriving Inhabited

namespace Collector

/-- Results, ascending by partition. -/
def inOrder (results : List PartResult) : List PartResult :=
  results.mergeSort fun a b => a.part ≤ b.part

/-- Completes the answer, unless it is complete, if as many reports are pending as are
expected.  The answer takes them up. -/
def finish (c : Collector) (now : UInt64) : Collector × List Event :=
  if c.response.isSome ∨ c.pending.length ≠ c.expected then (c, [])
  else
    let latency := UInt64.ofNat (now.toNat - c.started.toNat)
    ({ c with pending := [], response := some ⟨inOrder c.pending, latency⟩ },
      [.signal (.latency latency)])

/-- The collector of a request that just arrived.  The answer to a request without partitions is
complete at once. -/
def start (expected : Nat) (now : UInt64) : Collector × List Event :=
  finish ⟨expected, now, [], [], none⟩ now

/-- Adds the first report of a partition. -/
def add (c : Collector) (r : PartResult) : Collector :=
  { c with reports := c.reports ++ [r], pending := c.pending ++ [r] }

/-- Takes the report of a partition.  A second one is logged and otherwise ignored. -/
def report (c : Collector) (now : UInt64) (part : PartId) (code : ResultCode) :
    Collector × List Event :=
  if c.reports.any fun r => r.part == part then (c, [.log (.duplicateReport part code)])
  else
    let (c, events) := (c.add ⟨part, code⟩).finish now
    (c, (if code.isOk then [] else [.signal .failure]) ++ events)

theorem report_of_mem {c : Collector} {r : PartResult} (h : r ∈ c.reports) (now : UInt64)
    (code : ResultCode) :
    c.report now r.part code = (c, [.log (.duplicateReport r.part code)]) := by
  rw [report, if_pos]
  exact List.any_eq_true.2 ⟨r, h, by simp⟩

end Collector

end EdgeDeletion
