/-
Secondary indexes over the properties of one edge type.
-/
import EdgeDeletion.Edge.Key
import EdgeDeletion.Row

namespace EdgeDeletion

/-- An indexed column.  A text column is indexed at a fixed width. -/
structure IndexColumn extends Column where
  width : Option UInt16
deriving DecidableEq, Inhabited

/-- An index: its columns, in key order, and the edge type whose rows feed it. -/
structure Index where
  id : IndexId
  edgeType : EdgeType
  name : String
  columns : List IndexColumn
deriving DecidableEq, Inhabited

namespace Key

/-- The first byte of the keys of index entries. -/
def indexTag : UInt8 := 0x03

/-- The common start of the entries of an index in a partition. -/
def indexPrefix (part : PartId) (index : IndexId) : Bytes :=
  header indexTag part ++ Ordered.ofUInt32 index

/-- The key of the entry of an edge in an index; `image` stands for the indexed columns. -/
def entry (vidLen : Nat) (part : PartId) (index : IndexId) (e : Edge) (image : Bytes) : Bytes :=
  indexPrefix part index ++ image ++ Bytes.fit vidLen e.src ++ Ordered.ofInt64 e.rank ++
    Bytes.fit vidLen e.dst

end Key

end EdgeDeletion
