/-
Stored rows of edges.

A row holds the values of the leading columns of a schema.  It is written as a
format byte, the number of fields in two bytes, and the fields: a zero for a null,
otherwise the code of the type and the payload.  A row that was written before
the schema grew has fewer fields than the schema; the columns it lacks are absent.

* `decode` refuses a row for the first reason in the order of `RowError`.
-/
import EdgeDeletion.Bytes.Ordered
import EdgeDeletion.StorageError
import EdgeDeletion.Value

namespace EdgeDeletion

/-- A column of an edge schema. -/
structure Column where
  name : String
  type : ColumnType
  nullable : Bool
deriving DecidableEq, Inhabited

/-- The columns of an edge type, in row order. -/
abbrev EdgeSchema := List Column

/-- Why a row cannot be written or read. -/
inductive RowError where
  /-- There are more columns than a row can count. -/
  | tooManyColumns
  /-- A value is not of the type of its column. -/
  | valueMismatch
  /-- A text is longer than a row can count. -/
  | textTooLong
  | truncated
  | unknownFormat
  /-- The row has more fields than its schema has columns. -/
  | tooManyFields
  | tagMissing
  /-- The tag of a field is not the type of its column. -/
  | tagMismatch
  | fieldTruncated
  | notText
  | trailingBytes
deriving DecidableEq

/-- A row failure in the terms of callers. -/
def RowError.toStorageError : RowError → StorageError
  | .tooManyColumns => .invalid "edge schema has too many fields"
  | .valueMismatch => .invalid "edge property type does not match schema"
  | .textTooLong => .invalid "edge string property too long"
  | .truncated => .corruption "edge row truncated"
  | .unknownFormat => .corruption "unknown edge row format"
  | .tooManyFields => .corruption "edge row has more fields than its schema"
  | .tagMissing => .corruption "edge row field tag missing"
  | .tagMismatch => .corruption "edge row field type mismatch"
  | .fieldTruncated => .corruption "edge row field truncated"
  | .notText => .corruption "edge string property not UTF-8"
  | .trailingBytes => .corruption "edge row has trailing bytes"

/-- A decoded row: the names and values of its fields, in schema order. -/
structure Row where
  fields : List (String × Value)
deriving DecidableEq, Inhabited

namespace Row

def format : UInt8 := 1

def nullTag : UInt8 := 0

/-- The first value under a name. -/
def valueOf? (name : String) : List (String × Value) → Option Value
  | [] => none
  | (n, v) :: rest => if n = name then some v else valueOf? name rest

def get? (row : Row) (name : String) : Option Value := valueOf? name row.fields

/-! ### Writing -/

/-- The bytes of a value under a column type. -/
def encodeField (type : ColumnType) : Value → Except RowError Bytes
  | .null => .ok [nullTag]
  | .bool b => if type = .bool then .ok [type.code, if b then 1 else 0] else .error .valueMismatch
  | .int i =>
    if type = .int then .ok (type.code :: Bytes.bigEndian 8 i.toUInt64.toNat)
    else .error .valueMismatch
  | .float d =>
    if type = .float then .ok (type.code :: Bytes.bigEndian 8 d.bits.toNat)
    else .error .valueMismatch
  | .string s =>
    if type = .string then
      let body := Bytes.ofText s
      if body.length < UInt32.size then .ok (type.code :: (Bytes.bigEndian 4 body.length ++ body))
      else .error .textTooLong
    else .error .valueMismatch

/-- The bytes of the values of columns; a column without a value is null. -/
def encodeFields (props : List (String × Value)) : List Column → Except RowError Bytes
  | [] => .ok []
  | c :: cs =>
    match encodeField c.type ((valueOf? c.name props).getD .null) with
    | .error e => .error e
    | .ok field => (encodeFields props cs).map (field ++ ·)

/-- Writes the properties of an edge under a schema. -/
def encode (schema : EdgeSchema) (props : List (String × Value)) : Except RowError Bytes :=
  if schema.length < UInt16.size then
    (encodeFields props schema).map fun body =>
      format :: (Bytes.bigEndian 2 schema.length ++ body)
  else .error .tooManyColumns

/-! ### Reading -/

/-- Takes the bytes of a field off the front. -/
def takeField (n : Nat) (bs : Bytes) : Except RowError (Bytes × Bytes) :=
  match Bytes.take? n bs with
  | some p => .ok p
  | none => .error .fieldTruncated

/-- Reads the payload of a value that is no null. -/
def decodePayload (type : ColumnType) (bs : Bytes) : Except RowError (Value × Bytes) := do
  match type with
  | .bool =>
    let (payload, rest) ← takeField 1 bs
    pure (.bool (payload != [0]), rest)
  | .int =>
    let (payload, rest) ← takeField 8 bs
    pure (.int (UInt64.ofNat (Bytes.ofBigEndian payload)).toInt64, rest)
  | .float =>
    let (payload, rest) ← takeField 8 bs
    pure (.float ⟨UInt64.ofNat (Bytes.ofBigEndian payload)⟩, rest)
  | .string =>
    let (count, rest) ← takeField 4 bs
    let (body, rest) ← takeField (Bytes.ofBigEndian count) rest
    match Bytes.toText? body with
    | some s => pure (.string s, rest)
    | none => .error .notText

/-- Reads the value of a column off the front. -/
def decodeField (type : ColumnType) : Bytes → Except RowError (Value × Bytes)
  | [] => .error .tagMissing
  | tag :: bs =>
    if tag = nullTag then .ok (.null, bs)
    else if ColumnType.ofCode? tag = some type then decodePayload type bs
    else .error .tagMismatch

/-- Reads the values of columns off the front. -/
def decodeFields : List Column → Bytes → Except RowError (List (String × Value) × Bytes)
  | [], bs => .ok ([], bs)
  | c :: cs, bs =>
    match decodeField c.type bs with
    | .error e => .error e
    | .ok (v, rest) => (decodeFields cs rest).map fun p => ((c.name, v) :: p.1, p.2)

def decode (schema : EdgeSchema) : Bytes → Except RowError Row
  | form :: high :: low :: body =>
    let count := Bytes.ofBigEndian [high, low]
    if form ≠ format then .error .unknownFormat
    else if schema.length < count then .error .tooManyFields
    else
      match decodeFields (schema.take count) body with
      | .error e => .error e
      | .ok (fields, []) => .ok ⟨fields⟩
      | .ok (_, _ :: _) => .error .trailingBytes
  | _ => .error .truncated

end Row

end EdgeDeletion
