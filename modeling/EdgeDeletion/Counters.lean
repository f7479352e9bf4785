/-
Counters of the work on delete requests.

A `Signal` says what happened; `Counters.record` adds it up.  Sums wrap around at
2^64.
-/

namespace EdgeDeletion

/-- Something worth counting. -/
inductive Signal where
  | call
  | failure
  /-- A partition succeeded and removed a number of edges. -/
  | edgesDeleted (count : UInt64)
  /-- A partition was turned away because an edge of it is held. -/
  | lockConflict
  /-- A number of index removals was put off to the operation log. -/
  | removalsDeferred (count : UInt64)
  /-- A number of index entries was removed directly. -/
  | entriesRemoved (count : UInt64)
  /-- A request was answered after a number of microseconds. -/
  | latency (micros : UInt64)
deriving DecidableEq

/-- The sums of all signals. -/
structure Counters where
  calls : UInt64 := 0
  failures : UInt64 := 0
  edgesDeleted : UInt64 := 0
  lockConflicts : UInt64 := 0
  removalsDeferred : UInt64 := 0
  entriesRemoved : UInt64 := 0
  latencyTotal : UInt64 := 0
  latencyMax : UInt64 := 0
deriving DecidableEq, Inhabited

namespace Counters

def record (c : Counters) : Signal → Counters
  | .call => { c with calls := c.calls + 1 }
  | .failure => { c with failures := c.failures + 1 }
  | .edgesDeleted n => { c with edgesDeleted := c.edgesDeleted + n }
  | .lockConflict => { c with lockConflicts := c.lockConflicts + 1 }
  | .removalsDeferred n => { c with removalsDeferred := c.removalsDeferred + n }
  | .entriesRemoved n => { c with entriesRemoved := c.entriesRemoved + n }
  | .latency n =>
    { c with
      latencyTotal := c.latencyTotal + n
      latencyMax := if c.latencyMax < n then n else c.latencyMax }

end Counters

end EdgeDeletion
