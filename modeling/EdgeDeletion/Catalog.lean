/-
The catalog of spaces, edge schemas and indexes.

A space has a vertex width, schemas for forward edge types, and indexes on types
with a schema.  A reverse edge type is served by the schema of its forward type.

* `edgeSchema_neg` — a type and its reverse have one schema.
-/
import EdgeDeletion.Index

namespace EdgeDeletion

/-- Why the catalog refuses. -/
inductive CatalogError where
  | unknownSpace
  | unknownEdgeType
  /-- The space was registered with a vertex width of zero. -/
  | zeroWidth
  /-- A schema is registered for a type that is not a forward one. -/
  | notForward
  /-- The space has an index with this id. -/
  | indexIdTaken
deriving DecidableEq

/-- A catalog failure in the terms of callers. -/
def CatalogError.toStorageError : CatalogError → StorageError
  | .unknownSpace => .notFound "space"
  | .unknownEdgeType => .notFound "edge schema"
  | .zeroWidth => .invalid "space vid length is zero"
  | .notForward => .invalid "edge schemas are registered for forward types"
  | .indexIdTaken => .invalid "index id already exists"

/-- What the catalog knows of a space. -/
structure SpaceInfo where
  vidLen : Nat
  schemas : OrderedMap EdgeType EdgeSchema
  /-- In the order in which they were added. -/
  indexes : List Index
deriving Inhabited

/-- The spaces by their numbers. -/
structure Catalog where
  spaces : OrderedMap SpaceId SpaceInfo
deriving Inhabited

namespace Catalog

def empty : Catalog := ⟨.empty⟩

/-- Registers a space, in place of an earlier one with all that was defined in it. -/
def addSpace (c : Catalog) (space : SpaceId) (vidLen : Nat) : Catalog :=
  ⟨c.spaces.insert space ⟨vidLen, .empty, []⟩⟩

/-- Removes a space and tells whether it was there. -/
def dropSpace (c : Catalog) (space : SpaceId) : Bool × Catalog :=
  (c.spaces.contains space, ⟨c.spaces.erase space⟩)

def space (c : Catalog) (space : SpaceId) : Except CatalogError SpaceInfo :=
  match c.spaces.get? space with
  | some info => .ok info
  | none => .error .unknownSpace

/-- Registers the schema of a forward edge type, in place of an earlier one. -/
def addSchema (c : Catalog) (space : SpaceId) (type : EdgeType) (schema : EdgeSchema) :
    Except CatalogError Catalog :=
  if type.toInt ≤ 0 then .error .notForward
  else
    (c.space space).map fun info =>
      ⟨c.spaces.insert space { info with schemas := info.schemas.insert type schema }⟩

/-- Adds an index on an edge type with a schema. -/
def addIndex (c : Catalog) (space : SpaceId) (index : Index) : Except CatalogError Catalog := do
  let info ← c.space space
  if !info.schemas.contains index.edgeType then .error .unknownEdgeType
  else if info.indexes.any fun i => i.id == index.id then .error .indexIdTaken
  else
    pure ⟨c.spaces.insert space { info with indexes := info.indexes ++ [index] }⟩

/-- Drops an index and tells whether it was there. -/
def dropIndex (c : Catalog) (space : SpaceId) (index : IndexId) : Bool × Catalog :=
  match c.spaces.get? space with
  | none => (false, c)
  | some info =>
    let kept := info.indexes.filter fun i => i.id != index
    (kept.length != info.indexes.length,
      ⟨c.spaces.insert space { info with indexes := kept }⟩)

def vidLen (c : Catalog) (space : SpaceId) : Except CatalogError Nat := do
  let info ← c.space space
  if info.vidLen = 0 then .error .zeroWidth else pure info.vidLen

/-- The forward type of an edge type.  The least number has no opposite and stands for itself. -/
def forwardType (type : EdgeType) : EdgeType :=
  if type.toInt < 0 ∧ type ≠ Int32.minValue then Int32.ofInt (-type.toInt) else type

/-- The schema of an edge type, forward or reverse. -/
def edgeSchema (c : Catalog) (space : SpaceId) (type : EdgeType) :
    Except CatalogError EdgeSchema := do
  let info ← c.space space
  match info.schemas.get? (forwardType type) with
  | some schema => pure schema
  | none => .error .unknownEdgeType

def edgeIndexes (c : Catalog) (space : SpaceId) : Except CatalogError (List Index) :=
  (c.space space).map (·.indexes)

/-- Reads a stored row under the schema of its edge type. -/
def decodeRow (c : Catalog) (space : SpaceId) (type : EdgeType) (raw : Bytes) :
    Except StorageError Row :=
  match c.edgeSchema space type with
  | .error e => .error e.toStorageError
  | .ok schema =>
    match Row.decode schema raw with
    | .error e => .error e.toStorageError
    | .ok row => .ok row

theorem forwardType_of_pos {type : EdgeType} (h : 0 < type.toInt) : forwardType type = type := by
  rw [forwardType, if_neg]
  omega

theorem forwardType_neg {type : EdgeType} (h : 0 < type.toInt) : forwardType (-type) = type := by
  have hlt := type.toInt_lt
  have hneg : (-type).toInt = -type.toInt := by
    rw [Int32.toInt_neg, Int.bmod_eq_of_le] <;> omega
  rw [forwardType, if_pos, hneg, Int.neg_neg, Int32.ofInt_toInt]
  refine ⟨by omega, fun hm => ?_⟩
  have := congrArg Int32.toInt hm
  rw [hneg] at this
  have hmin : Int32.minValue.toInt = -2147483648 := by decide
  omega

/-- A forward type and its reverse have one schema. -/
theorem edgeSchema_neg (c : Catalog) (space : SpaceId) {type : EdgeType} (h : 0 < type.toInt) :
    c.edgeSchema space (-type) = c.edgeSchema space type := by
  simp only [edgeSchema, forwardType_neg h, forwardType_of_pos h]

end Catalog

end EdgeDeletion
