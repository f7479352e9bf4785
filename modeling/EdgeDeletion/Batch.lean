/-
Write batches, the unit of writing to the store.

A batch is a version byte, the number of operations, and the operations: a one, a
key and a value for a put, a two and a key for a removal.  Numbers and lengths are
variable-length numbers.

* `decode` accepts no byte after the last operation.
-/
import EdgeDeletion.Bytes.Varint
import EdgeDeletion.StorageError

namespace EdgeDeletion

/-- A change to one key. -/
inductive BatchOp where
  | put (key value : Bytes)
  | remove (key : Bytes)
deriving DecidableEq, Inhabited

def BatchOp.key : BatchOp → Bytes
  | .put key _ => key
  | .remove key => key

/-- Why a payload is no batch. -/
inductive BatchError where
  | empty
  | unknownVersion
  /-- The number of operations cannot be read. -/
  | badCount
  /-- The payload ends within an operation. -/
  | truncated
  /-- A length cannot be read, or no payload could be as long. -/
  | badLength
  | unknownTag
  | trailingBytes
deriving DecidableEq

/-- A batch failure in the terms of callers. -/
def BatchError.toStorageError : BatchError → StorageError
  | .empty => .corruption "batch payload empty"
  | .unknownVersion => .corruption "unknown batch version"
  | .badCount => .corruption "batch count"
  | .truncated => .corruption "batch op truncated"
  | .badLength => .corruption "batch length"
  | .unknownTag => .corruption "unknown batch op tag"
  | .trailingBytes => .corruption "batch payload has trailing bytes"

namespace Batch

def version : UInt8 := 1

def putTag : UInt8 := 1

def removeTag : UInt8 := 2

/-! ### Writing -/

/-- A byte string after its length. -/
def encodeBytes (bs : Bytes) : Bytes := Varint.encode (UInt64.ofNat bs.length) ++ bs

def encodeOp : BatchOp → Bytes
  | .put key value => putTag :: (encodeBytes key ++ encodeBytes value)
  | .remove key => removeTag :: encodeBytes key

def encode (ops : List BatchOp) : Bytes :=
  version :: (Varint.encode (UInt64.ofNat ops.length) ++ ops.flatMap encodeOp)

/-! ### Reading -/

/-- Takes a byte string after its length off the front of what is left of a payload of `total`
bytes.  A length that reaches beyond the range of positions is no length. -/
def decodeBytes (total : Nat) (bs : Bytes) : Except BatchError (Bytes × Bytes) :=
  match Varint.decode bs with
  | (none, _) => .error .badLength
  | (some n, rest) =>
    if UInt64.size ≤ (total - rest.length) + n.toNat then .error .badLength
    else
      match Bytes.take? n.toNat rest with
      | some p => .ok p
      | none => .error .truncated

/-- Takes an operation off the front.  Its tag is judged after its key was read. -/
def decodeOp (total : Nat) : Bytes → Except BatchError (BatchOp × Bytes)
  | [] => .error .truncated
  | tag :: bs => do
    let (key, rest) ← decodeBytes total bs
    if tag = putTag then
      let (value, rest) ← decodeBytes total rest
      pure (.put key value, rest)
    else if tag = removeTag then pure (.remove key, rest)
    else .error .unknownTag

def decodeOps (total : Nat) : (count : Nat) → Bytes → Except BatchError (List BatchOp × Bytes)
  | 0, bs => .ok ([], bs)
  | n + 1, bs => do
    let (op, rest) ← decodeOp total bs
    let (ops, rest) ← decodeOps total n rest
    pure (op :: ops, rest)

def decode : Bytes → Except BatchError (List BatchOp)
  | [] => .error .empty
  | v :: bs =>
    if v ≠ version then .error .unknownVersion
    else
      match Varint.decode bs with
      | (none, _) => .error .badCount
      | (some count, rest) =>
        match decodeOps (bs.length + 1) count.toNat rest with
        | .error e => .error e
        | .ok (ops, []) => .ok ops
        | .ok (_, _ :: _) => .error .trailingBytes

end Batch

end EdgeDeletion
