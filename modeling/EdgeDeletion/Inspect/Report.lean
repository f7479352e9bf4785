/-
What the inspector reports.

* `edgeKey` — the key of an edge with ids of the right width;
* `classify` — the family of a key, and its components if it is the key of an edge;
* `ConfigSummary.of?` — the spaces of a configuration that describes a catalog;
* `Report.text`, `Report.json` — the two forms of a report.
-/
import EdgeDeletion.Batch
import EdgeDeletion.Config
import EdgeDeletion.OperationLog
import EdgeDeletion.Text.Hex
import EdgeDeletion.Text.Json

namespace EdgeDeletion.Inspect

/-- Why there is nothing to report. -/
inductive InspectError where
  | hex (cause : Hex.HexError)
  /-- The ids of an edge are not as long as the space wants them. -/
  | width (vidLen src dst : Nat)
  | storage (cause : StorageError)
  | unreadable (path cause : String)
  | malformed (path : String)
deriving DecidableEq

def InspectError.message : InspectError → String
  | .hex cause => cause.message
  | .width vidLen src dst =>
    "vertex ids must be " ++ toString vidLen ++ " bytes (src " ++ toString src ++ ", dst " ++
      toString dst ++ ")"
  | .storage cause => cause.message
  | .unreadable path cause => "failed to read shard config " ++ path ++ ": " ++ cause
  | .malformed path => "failed to parse shard config " ++ path ++ ": malformed configuration"

/-! ### Keys -/

/-- The record key of an edge, or its prefix. -/
def edgeKey (vidLen : Nat) (part : PartId) (e : Edge) (prefixOnly : Bool) :
    Except InspectError Bytes :=
  if e.hasWidth vidLen then
    .ok (if prefixOnly then Key.edgePrefix vidLen part e else Key.record vidLen part e)
  else .error (.width vidLen e.src.length e.dst.length)

/-- The families of keys that are told apart. -/
inductive Family where
  | lock
  | edgeRecord
  | deferredDeletion
  | other
deriving DecidableEq

def Family.name : Family → String
  | .lock => "lock"
  | .edgeRecord => "edge-record"
  | .deferredDeletion => "deferred-deletion"
  | .other => "other"

/-- What is known of a key. -/
structure Classification where
  family : Family
  components : Option (PartId × Edge)
deriving DecidableEq

def family (vidLen : Nat) (key : Bytes) : Family :=
  match Key.kind vidLen key with
  | .lock => .lock
  | .record => .edgeRecord
  | .other => if Key.isDeferral key then .deferredDeletion else .other

def classify (vidLen : Nat) (key : Bytes) : Classification :=
  ⟨family vidLen key, (Key.parse? vidLen key).map fun p => (p.part, p.edge)⟩

/-! ### Configurations -/

/-- What is reported of an entry of a configuration: its width and the number of its edge types,
and the indexes of its space. -/
structure SpaceSummary where
  id : SpaceId
  vidLen : Nat
  edgeTypes : Nat
  indexes : List String
deriving DecidableEq

/-- What is reported of a configuration. -/
structure ConfigSummary where
  logConflictKeys : Bool
  spaces : List SpaceSummary
deriving DecidableEq

/-- The summary of an entry, with the indexes of a catalog. -/
def SpaceSummary.of? (c : Catalog) (d : SpaceDeclaration) : Except CatalogError SpaceSummary :=
  (c.edgeIndexes d.id).map fun indexes => ⟨d.id, d.vidLen, d.edges.length, indexes.map (·.name)⟩

/-- The summary of a configuration, unless it describes no catalog. -/
def ConfigSummary.of? (config : Config) : Except CatalogError ConfigSummary := do
  let c ← Catalog.ofConfig config
  pure ⟨config.options.logConflictKeys, ← config.spaces.mapM (SpaceSummary.of? c)⟩

/-! ### Reports -/

inductive Report where
  | key (key : Bytes)
  | classification (c : Classification)
  | batch (ops : List BatchOp)
  | config (s : ConfigSummary)

def line (words : List String) : String := String.join words ++ "\n"

def opLine : BatchOp → String
  | .put key value => line ["put ", Hex.encode key, " = ", Hex.encode value]
  | .remove key => line ["remove ", Hex.encode key]

def spaceLine (s : SpaceSummary) : String :=
  line ["space ", toString s.id.toNat, " vid_len=", toString s.vidLen, " edge_types=",
    toString s.edgeTypes, " indexes=[", String.intercalate ", " s.indexes, "]"]

def componentsLine (part : PartId) (e : Edge) : String :=
  line ["  part=", toString part.toNat, " src=", Text.escaped e.src, " type=",
    toString e.type.toInt, " rank=", toString e.rank.toInt, " dst=", Text.escaped e.dst]

def Report.text : Report → String
  | .key bs => line [Hex.encode bs]
  | .classification c =>
    line ["kind: ", c.family.name] ++
      match c.components with
      | some (part, e) => componentsLine part e
      | none => ""
  | .batch ops => String.join (ops.map opLine)
  | .config s =>
    line ["log_conflict_keys=", if s.logConflictKeys then "true" else "false"] ++
      String.join (s.spaces.map spaceLine)

open Text (Json)

def opJson : BatchOp → Json
  | .put key value =>
    .record [("op", .string "put"), ("key", .string (Hex.encode key)),
      ("value", .string (Hex.encode value))]
  | .remove key =>
    .record [("op", .string "remove"), ("key", .string (Hex.encode key)), ("value", .null)]

def spaceJson (s : SpaceSummary) : Json :=
  .record [("id", .number s.id.toNat), ("vid_len", .number s.vidLen),
    ("edge_types", .number s.edgeTypes), ("indexes", .list (s.indexes.map .string))]

/-- What is known of a key as a record. -/
def Classification.json (c : Classification) : Json :=
  let component (f : PartId → Edge → Json) : Json := .optional (fun p => f p.1 p.2) c.components
  .record [("kind", .string c.family.name),
    ("part", component fun part _ => .number part.toNat),
    ("src", component fun _ e => .string (Text.escaped e.src)),
    ("edge_type", component fun _ e => .number e.type.toInt),
    ("rank", component fun _ e => .number e.rank.toInt),
    ("dst", component fun _ e => .string (Text.escaped e.dst))]

def Report.json : Report → Json
  | .key bs => .record [("key", .string (Hex.encode bs)), ("len", .number bs.length)]
  | .classification c => c.json
  | .batch ops => .list (ops.map opJson)
  | .config s =>
    .record [("log_conflict_keys", .bool s.logConflictKeys),
      ("spaces", .list (s.spaces.map spaceJson))]

end EdgeDeletion.Inspect
