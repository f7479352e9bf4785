/-
Reading of configurations.

A configuration is a TOML document:

    [mutate]
    log_conflict_keys = false

    [[spaces]]
    id = 1
    vid_len = 8

    [[spaces.edges]]
    edge_type = 3
    fields = [{ name = "weight", type = "int" }]

    [[spaces.indexes]]
    id = 10
    name = "by_weight"
    edge_type = 3
    fields = [{ name = "weight", type = "int" }]

The lists are empty, the flags of columns off and conflicts logged, if nothing else is
given.  A record is a table with the names of its parts as keys, where other keys are
ignored, or the list of its parts in the order shown, where further elements are
ignored.  A date stands for a record without parts.  What fits a record follows the
documented behaviour of the readers that `serde` derives.

* `Config.parse` — the configuration in a text, or nothing if there is none.
-/
import EdgeDeletion.Config
import EdgeDeletion.Toml.Document

namespace EdgeDeletion.Config

/-- The parts of a record. -/
inductive Parts where
  | named (table : Toml.Table)
  | placed (elements : List Toml.Value)

namespace Parts

/-- The parts of a value that stands for a record. -/
def of? : Toml.Value → Option Parts
  | .table _ t => some (.named t)
  | .array vs | .tables vs => some (.placed vs)
  | .date => some (.named [])
  | _ => none

/-- The part with a name and a place. -/
def get? (place : Nat) (name : String) : Parts → Option Toml.Value
  | .named t => Toml.Table.get? name t
  | .placed vs => vs[place]?

/-- Reads a part that has to be there. -/
def required? (read : Toml.Value → Option α) (place : Nat) (name : String) (p : Parts) :
    Option α :=
  (p.get? place name).bind read

/-- Reads a part that may be missing. -/
def optional? (read : Toml.Value → Option α) (missing : α) (place : Nat) (name : String)
    (p : Parts) : Option α :=
  match p.get? place name with
  | none => some missing
  | some v => read v

end Parts

def flag? : Toml.Value → Option Bool
  | .boolean b => some b
  | _ => none

def text? : Toml.Value → Option String
  | .string s => some s
  | _ => none

def integer? (low high : Int) : Toml.Value → Option Int
  | .integer i => if low ≤ i ∧ i ≤ high then some i else none
  | _ => none

/-- Reads the number of a space or an index. -/
def identifier? (v : Toml.Value) : Option UInt32 :=
  (integer? 0 0xffffffff v).map fun i => UInt32.ofNat i.toNat

def edgeType? (v : Toml.Value) : Option EdgeType :=
  (integer? (-0x80000000) 0x7fffffff v).map Int32.ofInt

def list? (read : Toml.Value → Option α) : Toml.Value → Option (List α)
  | .array vs | .tables vs => vs.mapM read
  | _ => none

/-- Reads a column type: its name, or its name as the only key of a table that has nothing
under it. -/
def columnType? : Toml.Value → Option ColumnType
  | .string name => ColumnType.ofName? name
  | .table _ [(name, .table _ [])] => ColumnType.ofName? name
  | .table _ [(name, .array [])] => ColumnType.ofName? name
  | _ => none

def column? (v : Toml.Value) : Option IndexColumn := do
  let p ← Parts.of? v
  let name ← p.required? text? 0 "name"
  let type ← p.required? columnType? 1 "type"
  let nullable ← p.optional? flag? false 2 "nullable"
  let width ← p.optional? (fun v => (integer? 0 0xffff v).map some) none 3 "len"
  pure { name, type, nullable, width := width.map fun i => UInt16.ofNat i.toNat }

def edge? (v : Toml.Value) : Option EdgeDeclaration := do
  let p ← Parts.of? v
  let type ← p.required? edgeType? 0 "edge_type"
  let columns ← p.optional? (list? column?) [] 1 "fields"
  pure ⟨type, columns⟩

def index? (v : Toml.Value) : Option Index := do
  let p ← Parts.of? v
  let id ← p.required? identifier? 0 "id"
  let name ← p.required? text? 1 "name"
  let type ← p.required? edgeType? 2 "edge_type"
  let columns ← p.optional? (list? column?) [] 3 "fields"
  pure ⟨id, type, name, columns⟩

def space? (v : Toml.Value) : Option SpaceDeclaration := do
  let p ← Parts.of? v
  let id ← p.required? identifier? 0 "id"
  let vidLen ← p.required? (integer? 0 0x7fffffffffffffff) 1 "vid_len"
  let edges ← p.optional? (list? edge?) [] 2 "edges"
  let indexes ← p.optional? (list? index?) [] 3 "indexes"
  pure ⟨id, vidLen.toNat, edges, indexes⟩

def options? (v : Toml.Value) : Option Options := do
  let p ← Parts.of? v
  let log ← p.optional? flag? true 0 "log_conflict_keys"
  pure ⟨log⟩

def ofTable? (t : Toml.Table) : Option Config := do
  let p := Parts.named t
  let options ← p.optional? options? {} 0 "mutate"
  let spaces ← p.optional? (list? space?) [] 1 "spaces"
  pure ⟨options, spaces⟩

def parse (text : String) : Option Config := (Toml.parse text).bind ofTable?

end EdgeDeletion.Config
