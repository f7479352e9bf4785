/-
Edges of a partitioned graph and their identities.

An edge leaves a source vertex, has a type and a rank, and enters a destination
vertex.  A negative type names the reverse direction, and the rank tells parallel
edges apart.  An `EdgeId` adds the place where the edge is stored: the space and
the partition of the space.  Identities are ordered by space, partition, source,
type, rank and destination; types and ranks as signed numbers, vertices as bytes.

* `EdgeId.text` — the text that names an edge in messages.
-/
import EdgeDeletion.Text

namespace EdgeDeletion

/-- The number of a graph space. -/
abbrev SpaceId := UInt32

/-- The number of a partition within a space. -/
abbrev PartId := UInt32

/-- The number of a secondary index within a space. -/
abbrev IndexId := UInt32

/-- The type of an edge; negative for the reverse direction. -/
abbrev EdgeType := Int32

/-- Tells parallel edges of one type apart. -/
abbrev Rank := Int64

/-- A partition of a space. -/
structure Place where
  space : SpaceId
  part : PartId
deriving DecidableEq, Inhabited

/-- An edge between two vertices. -/
structure Edge where
  src : Bytes
  type : EdgeType
  rank : Rank
  dst : Bytes
deriving DecidableEq, Inhabited

/-- An edge at the place where it is stored; the unit of locking. -/
structure EdgeId where
  place : Place
  edge : Edge
deriving DecidableEq, Inhabited

instance : KeyOrder Place :=
  .through (fun p => (p.space, p.part)) fun {a b} h => by
    cases a; cases b; simp_all

instance : KeyOrder Edge :=
  .through (fun e => (e.src, e.type, e.rank, e.dst)) fun {a b} h => by
    cases a; cases b; simp_all

instance : KeyOrder EdgeId :=
  .through (fun i => (i.place, i.edge)) fun {a b} h => by
    cases a; cases b; simp_all

/-- Whether both vertices of an edge have the width of their space. -/
def Edge.hasWidth (e : Edge) (vidLen : Nat) : Bool :=
  e.src.length == vidLen && e.dst.length == vidLen

/-- The text of an identity: its components in order, with colons between them. -/
def EdgeId.text (i : EdgeId) : String :=
  String.intercalate ":" [toString i.place.space.toNat, toString i.place.part.toNat,
    Text.escaped i.edge.src, toString i.edge.type.toInt, toString i.edge.rank.toInt,
    Text.escaped i.edge.dst]

end EdgeDeletion
