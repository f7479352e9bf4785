/-
Failures of delete requests and the codes that callers get for them.

* `DeleteError.code` — the code of a failure;
* `DeleteError.code_ne_succeeded` — no failure has the code of a success.
-/
import EdgeDeletion.StorageError
import EdgeDeletion.Store

namespace EdgeDeletion

/-- The outcome of a partition, as callers see it. -/
inductive ResultCode where
  | succeeded
  /-- A vertex of the request does not have the width of the space. -/
  | invalidVertexIdLength
  /-- The vertex width of the space is not known. -/
  | invalidSpaceVidLen
  /-- The space or its indexes are not known. -/
  | spaceOrSchemaNotFound
  | invalidRecordFormat
  /-- An index is locked, or an edge is held by another request. -/
  | dataConflict
  | store (code : StoreCode)
deriving DecidableEq, Inhabited

namespace ResultCode

/-- Whether a code is the one of a success. -/
def isOk : ResultCode → Bool
  | .succeeded => true
  | _ => false

def message : ResultCode → String
  | .succeeded => "succeeded"
  | .invalidVertexIdLength => "invalid vertex id length"
  | .invalidSpaceVidLen => "invalid space vid length"
  | .spaceOrSchemaNotFound => "space or schema not found"
  | .invalidRecordFormat => "invalid record format"
  | .dataConflict => "data conflict"
  | .store code => "store error: " ++ code.message

end ResultCode

/-- Why a request, or a partition of it, fails. -/
inductive DeleteError where
  /-- The vertex width of the space is not known. -/
  | widthUnavailable (space : SpaceId) (source : StorageError)
  /-- The indexes of the space are not known. -/
  | indexesUnavailable (space : SpaceId) (source : StorageError)
  /-- A vertex does not have the width of the space. -/
  | invalidWidth (vidLen srcLen dstLen : Nat)
  | invalidRecord (type : EdgeType) (source : StorageError)
  /-- An index on the edge is locked in the partition. -/
  | indexLocked (index : IndexId) (name : String)
  /-- Another request holds the edge. -/
  | conflict (edge : EdgeId)
  /-- The store failed the scan or the write. -/
  | store (code : StoreCode)
  /-- Some partition will never report. -/
  | responseDropped
deriving DecidableEq

namespace DeleteError

def message : DeleteError → String
  | .widthUnavailable space source =>
    "vid length of space " ++ toString space.toNat ++ " unavailable: " ++ source.message
  | .indexesUnavailable space source =>
    "indexes of space " ++ toString space.toNat ++ " unavailable: " ++ source.message
  | .invalidWidth vidLen srcLen dstLen =>
    "vertex id length mismatch: expected " ++ toString vidLen ++ ", got src " ++
      toString srcLen ++ " and dst " ++ toString dstLen
  | .invalidRecord type source =>
    "edge row of type " ++ toString type.toInt ++ " is malformed: " ++ source.message
  | .indexLocked index name =>
    "index '" ++ name ++ "' (" ++ toString index.toNat ++ ") is locked"
  | .conflict edge => "edge " ++ edge.text ++ " is held by another request"
  | .store code => "store rejected the write: " ++ code.message
  | .responseDropped => "response dropped before every partition reported"

/-- The code that callers get for a failure. -/
def code : DeleteError → ResultCode
  | .widthUnavailable .. => .invalidSpaceVidLen
  | .indexesUnavailable .. => .spaceOrSchemaNotFound
  | .invalidWidth .. => .invalidVertexIdLength
  | .invalidRecord .. => .invalidRecordFormat
  | .indexLocked .. => .dataConflict
  | .conflict _ => .dataConflict
  | .store code => .store code
  | .responseDropped => .store .unknown

theorem code_ne_succeeded (e : DeleteError) : e.code ≠ .succeeded := by
  cases e <;> nofun

end DeleteError

end EdgeDeletion
