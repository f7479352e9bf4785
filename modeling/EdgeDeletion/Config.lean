/-
Declarations of spaces, edge types and indexes, and the catalog that they describe.

A configuration lists spaces; each lists its edge types and its indexes.  The entries
take effect in order, in a space the edge types before the indexes.  A second entry
for a space replaces the first one, and a second one for an edge type its schema.

* `Catalog.ofConfig` — the catalog of a configuration, or the first offence.
-/
import EdgeDeletion.Catalog
import EdgeDeletion.Options

namespace EdgeDeletion

/-- The declaration of an edge type.  Widths of its columns are let through and ignored. -/
structure EdgeDeclaration where
  type : EdgeType
  columns : List IndexColumn
deriving DecidableEq, Inhabited

def EdgeDeclaration.schema (d : EdgeDeclaration) : EdgeSchema := d.columns.map (·.toColumn)

/-- The declaration of a space. -/
structure SpaceDeclaration where
  id : SpaceId
  vidLen : Nat
  edges : List EdgeDeclaration
  indexes : List Index
deriving DecidableEq, Inhabited

/-- The configuration of a storage node. -/
structure Config where
  options : Options
  spaces : List SpaceDeclaration
deriving DecidableEq, Inhabited

namespace Catalog

def addSchemas (space : SpaceId) : List EdgeDeclaration → Catalog → Except CatalogError Catalog
  | [], c => .ok c
  | d :: ds, c => do addSchemas space ds (← c.addSchema space d.type d.schema)

def addIndexes (space : SpaceId) : List Index → Catalog → Except CatalogError Catalog
  | [], c => .ok c
  | i :: is, c => do addIndexes space is (← c.addIndex space i)

def declare (c : Catalog) (d : SpaceDeclaration) : Except CatalogError Catalog := do
  addIndexes d.id d.indexes (← addSchemas d.id d.edges (c.addSpace d.id d.vidLen))

def declareAll : List SpaceDeclaration → Catalog → Except CatalogError Catalog
  | [], c => .ok c
  | d :: ds, c => do declareAll ds (← c.declare d)

def ofConfig (config : Config) : Except CatalogError Catalog := declareAll config.spaces .empty

end Catalog

end EdgeDeletion
