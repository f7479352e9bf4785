/-
Property values of edges and the types of columns.

* `Value.type?` — the type of a value; a null has none;
* `Value.text` — the text of a value.
-/
import EdgeDeletion.Double.Decimal

namespace EdgeDeletion

/-- The type of a stored or indexed column. -/
inductive ColumnType where
  | bool
  | int
  | float
  | string
deriving DecidableEq, Inhabited

namespace ColumnType

/-- The byte that stands for a type in stored rows. -/
def code : ColumnType → UInt8
  | .bool => 1
  | .int => 2
  | .float => 3
  | .string => 4

/-- The type that a byte stands for. -/
def ofCode? (code : UInt8) : Option ColumnType :=
  if code = 1 then some .bool
  else if code = 2 then some .int
  else if code = 3 then some .float
  else if code = 4 then some .string
  else none

theorem ofCode?_code (t : ColumnType) : ofCode? t.code = some t := by
  cases t <;> rfl

def name : ColumnType → String
  | .bool => "bool"
  | .int => "int"
  | .float => "float"
  | .string => "string"

def ofName? (name : String) : Option ColumnType :=
  [bool, int, float, string].find? fun t => t.name == name

end ColumnType

/-- A property value. -/
inductive Value where
  | null
  | bool (b : Bool)
  | int (i : Int64)
  | float (d : Double)
  | string (s : String)
deriving DecidableEq, Inhabited

namespace Value

/-- The type of a value; a null has none. -/
def type? : Value → Option ColumnType
  | .null => none
  | .bool _ => some .bool
  | .int _ => some .int
  | .float _ => some .float
  | .string _ => some .string

def isNull : Value → Bool
  | .null => true
  | _ => false

def text : Value → String
  | .null => "null"
  | .bool b => if b then "true" else "false"
  | .int i => toString i.toInt
  | .float d => d.text
  | .string s => s

/-- Equality of values, where doubles compare as numbers: a NaN equals nothing. -/
def equal : Value → Value → Bool
  | .float a, .float b => a.equal b
  | a, b => a == b

end Value

end EdgeDeletion
