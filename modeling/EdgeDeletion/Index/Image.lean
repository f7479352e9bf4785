/-
The image of a row under the columns of an index.

Each column adds a fixed number of bytes, which sort as the values do.  A null adds
what false, zero or the empty text adds.  If a column admits nulls, two bytes follow
all columns: a bitmap with a bit for each such column, from the top bit down, set
where the value is null.

* `ofRow` refuses a row for its first offending column; within a column an absent
  field comes before a null that is not admitted, and that before a value of the
  wrong type or a text column without a width.
-/
import EdgeDeletion.Index

namespace EdgeDeletion

/-- Why a row has no image. -/
inductive ImageError where
  | missingField (name : String)
  /-- A null stands in a column that admits none. -/
  | nullNotAllowed (name : String)
  /-- A value is not of the type of its column, or is a NaN. -/
  | typeMismatch (name : String)
  /-- A text column was declared without a width. -/
  | missingWidth (name : String)
  /-- The bitmap cannot cover the columns that admit nulls. -/
  | tooManyNullable
deriving DecidableEq

namespace Image

/-- The greatest number of columns that may admit nulls. -/
def maxNullable : Nat := 16

end Image

def ImageError.message : ImageError → String
  | .missingField name => "field '" ++ name ++ "' is not present in the row"
  | .nullNotAllowed name =>
    "field '" ++ name ++ "' is null but the index column is not nullable"
  | .typeMismatch name => "field '" ++ name ++ "' does not match the index column type"
  | .missingWidth name => "string field '" ++ name ++ "' has no fixed index length"
  | .tooManyNullable =>
    "index has more than " ++ toString Image.maxNullable ++ " nullable columns"

namespace Image

/-- The bytes of a value in a column. -/
def ofValue (c : IndexColumn) (v : Value) : Except ImageError Bytes :=
  match c.type, v with
  | .bool, .bool b => .ok [if b then 1 else 0]
  | .bool, .null => .ok [0]
  | .int, .int i => .ok (Ordered.ofInt64 i)
  | .int, .null => .ok (Ordered.ofInt64 0)
  | .float, .float d => if d.isNaN then .error (.typeMismatch c.name) else .ok (Ordered.ofDouble d)
  | .float, .null => .ok (Ordered.ofDouble .zero)
  | .string, .string s =>
    match c.width with
    | some w => .ok (Bytes.fit w.toNat (Bytes.ofText s))
    | none => .error (.missingWidth c.name)
  | .string, .null =>
    match c.width with
    | some w => .ok (Bytes.fit w.toNat [])
    | none => .error (.missingWidth c.name)
  | _, _ => .error (.typeMismatch c.name)

/-- The value of a column in a row, unless it is absent or a null that is not admitted. -/
def columnValue (row : Row) (c : IndexColumn) : Except ImageError Value :=
  match row.get? c.name with
  | none => .error (.missingField c.name)
  | some v => if v.isNull && !c.nullable then .error (.nullNotAllowed c.name) else .ok v

/-- The bytes of the columns and the bitmap of their nulls; `place` counts the columns before
these that admit nulls. -/
def ofColumns (row : Row) : (place : Nat) → List IndexColumn → Except ImageError (Bytes × Nat)
  | _, [] => .ok ([], 0)
  | place, c :: cs => do
    let v ← columnValue row c
    let bytes ← ofValue c v
    let (rest, bitmap) ← ofColumns row (if c.nullable then place + 1 else place) cs
    pure (bytes ++ rest, (if v.isNull then Nat.pow 2 (15 - place) else 0) + bitmap)

def ofRow (row : Row) (columns : List IndexColumn) : Except ImageError Bytes :=
  if maxNullable < columns.countP (·.nullable) then .error .tooManyNullable
  else do
    let (bytes, bitmap) ← ofColumns row 0 columns
    pure (if columns.any (·.nullable) then bytes ++ Bytes.bigEndian 2 bitmap else bytes)

end Image

end EdgeDeletion
