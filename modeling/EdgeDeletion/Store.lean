/-
A partitioned store of ordered keys.

A write goes to one partition and is applied as a whole or not at all.  A submitted
write carries a token of its submitter; once it is applied or has failed, the token
comes back in a `Completion` with the outcome.  While the store is paused, writes
are held back in the order of their submission.  A fault makes the next write to a
partition, or the next scan of it, fail once.

Writes are completed inline, by the call that submits them or that ends the pause.  There
are no tasks here that would complete a write later on; what a runtime makes of the order
of completions is left to `Node.processDeferred`.

* `scan_parts` — a scan changes no contents;
* `apply_parts_of_error` — neither does a write that fails.
-/
import EdgeDeletion.Batch
import EdgeDeletion.Edge

namespace EdgeDeletion

universe u

/-- Why the store fails a scan or a write. -/
inductive StoreCode where
  /-- No partition of the space is here. -/
  | spaceNotFound
  /-- The partition is not here, another one of its space is. -/
  | partNotFound
  | leaderChanged
  | writeStalled
  | unknown
deriving DecidableEq, Inhabited

def StoreCode.message : StoreCode → String
  | .spaceNotFound => "space not found"
  | .partNotFound => "partition not found"
  | .leaderChanged => "leader changed"
  | .writeStalled => "write stalled"
  | .unknown => "unknown store error"

/-- The entries of a partition. -/
abbrev Contents := OrderedMap Bytes Bytes

def Contents.apply (c : Contents) (ops : List BatchOp) : Contents :=
  ops.foldl
    (fun c op =>
      match op with
      | .put key value => c.insert key value
      | .remove key => c.erase key)
    c

/-- What a write does to its partition. -/
inductive Change where
  | remove (keys : List Bytes)
  /-- Applies a batch, given by its payload. -/
  | batch (payload : Bytes)
deriving DecidableEq

/-- A submitted write with the token of its submitter. -/
structure Write (τ : Type u) where
  place : Place
  change : Change
  token : τ

/-- The outcome of a write, for its submitter. -/
structure Completion (τ : Type u) where
  token : τ
  result : Except StoreCode Unit
  /-- Set if the write failed because its payload is no batch. -/
  rejected : Option BatchError

/-- The partitions, the pending faults and the writes held back. -/
structure Store (τ : Type u) where
  parts : OrderedMap Place Contents
  writeFaults : OrderedMap Place StoreCode
  scanFaults : OrderedMap Place StoreCode
  /-- The writes held back, in order of submission; nothing unless the store is paused. -/
  held : Option (List (Write τ))
  /-- How many writes were submitted. -/
  submissions : Nat

namespace Store

variable {τ : Type u}

def empty : Store τ := ⟨.empty, .empty, .empty, none, 0⟩

instance : Inhabited (Store τ) := ⟨empty⟩

/-- Adds an empty partition; one that is there is kept as it is. -/
def addPart (s : Store τ) (place : Place) : Store τ :=
  if s.parts.contains place then s else { s with parts := s.parts.insert place .empty }

/-- The code for a partition that is not here. -/
def missingCode (s : Store τ) (place : Place) : StoreCode :=
  if s.parts.keys.any fun p => p.space == place.space then .partNotFound else .spaceNotFound

/-- The contents of a partition, or the code for its absence. -/
def contents (s : Store τ) (place : Place) : Except StoreCode Contents :=
  match s.parts.get? place with
  | some c => .ok c
  | none => .error (s.missingCode place)

/-- Stores an entry directly. -/
def put (s : Store τ) (place : Place) (key value : Bytes) : Except StoreCode (Store τ) :=
  (s.contents place).map fun c => { s with parts := s.parts.insert place (c.insert key value) }

def get? (s : Store τ) (place : Place) (key : Bytes) : Option Bytes :=
  (s.parts.get? place).bind fun c => c.get? key

/-- All entries of a partition, in key order. -/
def entries (s : Store τ) (place : Place) : List (Bytes × Bytes) :=
  match s.parts.get? place with
  | some c => c.entries
  | none => []

/-- Fails the next write to a partition. -/
def failWrite (s : Store τ) (place : Place) (code : StoreCode) : Store τ :=
  { s with writeFaults := s.writeFaults.insert place code }

/-- Fails the next scan of a partition. -/
def failScan (s : Store τ) (place : Place) (code : StoreCode) : Store τ :=
  { s with scanFaults := s.scanFaults.insert place code }

/-- The entries whose key starts with the given bytes.  They are the ones from there on, up to
the first that does not start so. -/
def entriesFrom (c : Contents) (start : Bytes) : List (Bytes × Bytes) :=
  (c.entries.dropWhile fun e => KeyOrder.before e.1 start).takeWhile fun e =>
    Bytes.startsWith e.1 start

/-- Scans a partition for the keys that start with the given bytes. -/
def scan (s : Store τ) (place : Place) (start : Bytes) :
    Store τ × Except StoreCode (List (Bytes × Bytes)) :=
  match s.scanFaults.get? place with
  | some code => ({ s with scanFaults := s.scanFaults.erase place }, .error code)
  | none => (s, (s.contents place).map fun c => entriesFrom c start)

/-- The operations of a change. -/
def opsOf : Change → Except BatchError (List BatchOp)
  | .remove keys => .ok (keys.map .remove)
  | .batch payload => Batch.decode payload

def apply (s : Store τ) (w : Write τ) : Store τ × Completion τ :=
  match s.writeFaults.get? w.place with
  | some code =>
    ({ s with writeFaults := s.writeFaults.erase w.place }, ⟨w.token, .error code, none⟩)
  | none =>
    match s.contents w.place with
    | .error code => (s, ⟨w.token, .error code, none⟩)
    | .ok c =>
      match opsOf w.change with
      | .error e => (s, ⟨w.token, .error .unknown, some e⟩)
      | .ok ops =>
        ({ s with parts := s.parts.insert w.place (c.apply ops) }, ⟨w.token, .ok (), none⟩)

def applyAll (s : Store τ) : List (Write τ) → Store τ × List (Completion τ)
  | [] => (s, [])
  | w :: ws =>
    let (s, done) := s.apply w
    let (s, rest) := applyAll s ws
    (s, done :: rest)

/-- Submits a write: it is applied at once, or held back while the store is paused. -/
def submit (s : Store τ) (w : Write τ) : Store τ × List (Completion τ) :=
  let s := { s with submissions := s.submissions + 1 }
  match s.held with
  | some queue => ({ s with held := some (queue ++ [w]) }, [])
  | none => s.applyAll [w]

/-- Holds writes back from now on. -/
def pause (s : Store τ) : Store τ :=
  { s with held := some (s.held.getD []) }

def heldWrites (s : Store τ) : List (Write τ) := s.held.getD []

/-- Applies the writes held back and holds none from now on. -/
def resume (s : Store τ) : Store τ × List (Completion τ) :=
  { s with held := none }.applyAll s.heldWrites

theorem scan_parts (s : Store τ) (place : Place) (start : Bytes) :
    (s.scan place start).1.parts = s.parts := by
  unfold scan
  split <;> rfl

theorem apply_parts_of_error {s : Store τ} {w : Write τ} {code : StoreCode}
    (h : (s.apply w).2.result = .error code) : (s.apply w).1.parts = s.parts := by
  unfold apply at h ⊢
  split
  · rfl
  · split
    · rfl
    · split
      · rfl
      · simp_all

end Store

end EdgeDeletion
