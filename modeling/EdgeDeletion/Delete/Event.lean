/-
The trace of the work on delete requests.

An `Event` is a question to a collaborator, a line of the log, a signal for the
counters, or the end of a write that was submitted by somebody else.

* `LogEntry.level`, `LogEntry.name`, `LogEntry.fields` — how a line is written.
-/
import EdgeDeletion.Counters
import EdgeDeletion.Delete.Error
import EdgeDeletion.Index.Image
import EdgeDeletion.Index.State

namespace EdgeDeletion

/-- A question to a collaborator.  Writes and looks at index states carry the numbers of locked
edges and of writes in flight at that moment. -/
inductive Call where
  | vidLen (space : SpaceId)
  | indexes (space : SpaceId)
  | scan (place : Place) (start : Bytes)
  | decode (space : SpaceId) (type : EdgeType) (raw : Bytes)
  | indexState (place : Place) (index : IndexId) (state : IndexState) (inflight : Nat)
  | remove (place : Place) (keys : List Bytes) (locked inflight : Nat)
  | batch (place : Place) (payload : Bytes) (locked inflight : Nat)
deriving DecidableEq

/-- A line of the log. -/
inductive LogEntry where
  /-- The store was given a payload that is no batch. -/
  | batchRejected (cause : BatchError)
  | widthUnavailable (space : SpaceId) (error : DeleteError)
  | indexesUnavailable (space : SpaceId) (error : DeleteError)
  | invalidWidth (place : Place) (error : DeleteError)
  /-- The batch of a partition could not be built. -/
  | batchFailed (place : Place) (error : DeleteError)
  /-- An edge of a partition is held; it is named if the options say so. -/
  | lockConflict (part : PartId) (edge : Option EdgeId)
  | storeFailed (part : PartId) (error : DeleteError)
  /-- A row has no image under an index, whose entry is left as it is. -/
  | valuesSkipped (part : PartId) (index : String) (cause : ImageError)
  /-- A partition reported again. -/
  | duplicateReport (part : PartId) (code : ResultCode)
deriving DecidableEq

/-- How grave a line is. -/
inductive LogLevel where
  | warn
  | error
deriving DecidableEq

namespace LogEntry

/-- How grave a line is. -/
def level : LogEntry → LogLevel
  | .batchRejected _ | .valuesSkipped .. | .duplicateReport .. => .warn
  | _ => .error

/-- The name of the event that a line tells. -/
def name : LogEntry → String
  | .batchRejected _ => "kv.batch_rejected"
  | .widthUnavailable .. => "mutate.delete_edges.space_vid_len"
  | .indexesUnavailable .. => "mutate.delete_edges.indexes"
  | .invalidWidth .. => "mutate.delete_edges.invalid_vid"
  | .batchFailed .. => "mutate.delete_edges.build_batch"
  | .lockConflict .. => "mutate.delete_edges.lock_conflict"
  | .storeFailed .. => "mutate.delete_edges.store"
  | .valuesSkipped .. => "mutate.delete_edges.index_values_skipped"
  | .duplicateReport .. => "mutate.response.duplicate_report"

/-- The named texts of a line. -/
def fields : LogEntry → List (String × String)
  | .batchRejected cause => [("error", cause.toStorageError.message)]
  | .widthUnavailable space e | .indexesUnavailable space e =>
    [("space", toString space.toNat), ("error", e.message)]
  | .invalidWidth place e | .batchFailed place e =>
    [("space", toString place.space.toNat), ("part", toString place.part.toNat),
      ("error", e.message)]
  | .lockConflict part none => [("part", toString part.toNat)]
  | .lockConflict part (some edge) => [("part", toString part.toNat), ("edge", edge.text)]
  | .storeFailed part e => [("part", toString part.toNat), ("error", e.message)]
  | .valuesSkipped part index cause =>
    [("part", toString part.toNat), ("index", index), ("error", cause.message)]
  | .duplicateReport part code => [("part", toString part.toNat), ("code", code.message)]

end LogEntry

/-- Something that happened while a request was worked on. -/
inductive Event where
  | call (c : Call)
  | log (l : LogEntry)
  | signal (s : Signal)
  /-- A write that no request submitted has ended. -/
  | written (name : String) (result : Except StoreCode Unit)

end EdgeDeletion
