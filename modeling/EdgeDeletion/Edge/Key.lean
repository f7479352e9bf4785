/-
Keys of stored edges.

All keys of an edge start with its prefix: a tag, the partition, the source, the
type, the rank and the destination, every vertex at the width of the space.  What
follows tells the role of the key:

* a zero and a lock id for a lock placeholder,
* a one for the current record,
* a one and a version for a stale version.

Numbers are written so that keys sort by their components, and the roles in the
order given.

* `length_edgePrefix` — prefixes of one width have one length.
-/
import EdgeDeletion.Bytes.Ordered
import EdgeDeletion.Edge

namespace EdgeDeletion

namespace Key

/-- The first byte of the keys of edges. -/
def edgeTag : UInt8 := 0x02

/-- The byte after the prefix of a lock placeholder. -/
def lockByte : UInt8 := 0x00

/-- The byte after the prefix of a record or a stale version. -/
def recordByte : UInt8 := 0x01

/-- The start of every key of a family in a partition. -/
def header (tag : UInt8) (part : PartId) : Bytes := tag :: Ordered.ofUInt32 part

/-- The common start of the keys of an edge. -/
def edgePrefix (vidLen : Nat) (part : PartId) (e : Edge) : Bytes :=
  header edgeTag part ++ Bytes.fit vidLen e.src ++ Ordered.ofInt32 e.type ++
    Ordered.ofInt64 e.rank ++ Bytes.fit vidLen e.dst

/-- The key of the current record of an edge. -/
def record (vidLen : Nat) (part : PartId) (e : Edge) : Bytes :=
  edgePrefix vidLen part e ++ [recordByte]

/-- The key of a stale version of an edge. -/
def stale (vidLen : Nat) (part : PartId) (e : Edge) (version : UInt64) : Bytes :=
  record vidLen part e ++ Ordered.ofUInt64 version

/-- The key of a lock placeholder of an edge. -/
def lock (vidLen : Nat) (part : PartId) (e : Edge) (lockId : Bytes) : Bytes :=
  edgePrefix vidLen part e ++ lockByte :: lockId

def prefixLength (vidLen : Nat) : Nat := 5 + 2 * vidLen + 12

def recordLength (vidLen : Nat) : Nat := prefixLength vidLen + 1

theorem length_edgePrefix (vidLen : Nat) (part : PartId) (e : Edge) :
    (edgePrefix vidLen part e).length = prefixLength vidLen := by
  simp only [edgePrefix, header, Ordered.ofUInt32, Ordered.ofInt32, Ordered.ofInt64,
    List.length_append, List.length_cons, Bytes.length_bigEndian, Bytes.length_fit, prefixLength]
  omega

/-- The role of a key under a prefix. -/
inductive Kind where
  | lock
  | record
  /-- A stale version, or a key of something else. -/
  | other
deriving DecidableEq, Inhabited

/-- Whether a key is long enough for a role and has the tag of edges. -/
def isEdgeKey (vidLen : Nat) (key : Bytes) : Bool :=
  recordLength vidLen ≤ key.length && key.head? == some edgeTag

def kind (vidLen : Nat) (key : Bytes) : Kind :=
  if isEdgeKey vidLen key then
    match key.drop (prefixLength vidLen) with
    | [] => .other
    | b :: rest =>
      if b = lockByte then .lock
      else if b = recordByte ∧ rest = [] then .record
      else .other
  else .other

/-- The components of a key of an edge. -/
structure Parsed where
  part : PartId
  edge : Edge
  kind : Kind
deriving DecidableEq

/-- Splits a key of an edge into its components. -/
def parse? (vidLen : Nat) (key : Bytes) : Option Parsed :=
  if isEdgeKey vidLen key then do
    let (_, rest) ← Bytes.take? 1 key
    let (part, rest) ← Bytes.take? 4 rest
    let (src, rest) ← Bytes.take? vidLen rest
    let (type, rest) ← Bytes.take? 4 rest
    let (rank, rest) ← Bytes.take? 8 rest
    let (dst, _) ← Bytes.take? vidLen rest
    let part ← Ordered.toUInt32? part
    let type ← Ordered.toInt32? type
    let rank ← Ordered.toInt64? rank
    pure ⟨part, ⟨src, type, rank, dst⟩, kind vidLen key⟩
  else none

end Key

end EdgeDeletion
