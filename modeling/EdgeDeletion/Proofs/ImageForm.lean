/-
What an image consists of.

Under every column a row has a `Cell`: its value, a text at the width of the column, a
null as false, zero or the empty text.  An image is the bytes of the cells, each of the
size of its column, and behind them, if a column admits nulls, the bitmap that tells where
nulls are.

* `form_of_ofRow` — a row that has an image supplies all columns, and its image has this
  form;
* `length_of_ofRow` — the images under the same columns have the same length.
-/
import Mathlib.Algebra.GroupWithZero.Nat
import EdgeDeletion.Index.Image

namespace EdgeDeletion

/-- How many bytes of a text a column keeps. -/
def IndexColumn.textWidth (c : IndexColumn) : Nat := (c.width.map UInt16.toNat).getD 0

/-- How many bytes a column adds to an image. -/
def IndexColumn.size (c : IndexColumn) : Nat :=
  match c.type with
  | .bool => 1
  | .int | .float => 8
  | .string => c.textWidth

namespace Image

/-! ### Cells -/

/-- What a row has under a column. -/
inductive Cell where
  | bool (b : Bool)
  | int (i : Int64)
  | float (d : Double)
  | text (bs : Bytes)
deriving DecidableEq

namespace Cell

/-- What a value counts as under a column.  Texts are cut to the width of the column or padded with
zeros to it, and a null counts as false, zero or the empty text. -/
def ofValue (c : IndexColumn) : Value → Cell
  | .bool b => .bool b
  | .int i => .int i
  | .float d => .float d
  | .string s => .text (Bytes.fit c.textWidth (Bytes.ofText s))
  | .null =>
    match c.type with
    | .bool => .bool false
    | .int => .int 0
    | .float => .float .zero
    | .string => .text (Bytes.fit c.textWidth [])

def bytes : Cell → Bytes
  | .bool b => [if b then 1 else 0]
  | .int i => Ordered.ofInt64 i
  | .float d => Ordered.ofDouble d
  | .text bs => bs

/-- The cell is of the type of a column, no NaN, and a text of its width. -/
def FitsIn (c : IndexColumn) : Cell → Prop
  | .bool _ => c.type = .bool
  | .int _ => c.type = .int
  | .float d => c.type = .float ∧ d.isNaN = false
  | .text bs => c.type = .string ∧ bs.length = c.textWidth

variable {c : IndexColumn} {x : Cell}

theorem length_bytes (h : x.FitsIn c) : x.bytes.length = c.size := by
  cases x with
  | bool b => simp [bytes, IndexColumn.size, show c.type = .bool from h]
  | int i => simp [bytes, Ordered.ofInt64, IndexColumn.size, show c.type = .int from h]
  | float d => simp [bytes, Ordered.ofDouble, IndexColumn.size, h.1]
  | text bs => simp [bytes, IndexColumn.size, h.1, h.2]

end Cell

/-- A value with an image fits into the column, and its image is that of its cell. -/
theorem form_of_ofValue {c : IndexColumn} {v : Value} {bytes : Bytes}
    (h : ofValue c v = .ok bytes) :
    (Cell.ofValue c v).FitsIn c ∧ bytes = (Cell.ofValue c v).bytes := by
  have hwidth : ∀ (text : Bytes) {w : UInt16}, c.type = .string → c.width = some w →
      (Cell.text (Bytes.fit c.textWidth text)).FitsIn c ∧
        Bytes.fit w.toNat text = (Cell.text (Bytes.fit c.textWidth text)).bytes := by
    intro text w htype hw
    refine ⟨⟨htype, Bytes.length_fit ..⟩, ?_⟩
    simp [Cell.bytes, IndexColumn.textWidth, hw]
  unfold ofValue at h
  cases htype : c.type <;> cases v <;> simp only [htype, reduceCtorEq, Except.ok.injEq] at h
  case bool.null | int.null | float.null =>
    simp [Cell.ofValue, Cell.FitsIn, Cell.bytes, htype, ← h, Double.isNaN, Double.magnitude,
      Double.zero]
  case bool.bool b | int.int i => exact ⟨htype, h.symm⟩
  case float.float d =>
    cases hnan : d.isNaN with
    | true => simp [hnan] at h
    | false =>
      simp only [hnan, Bool.false_eq_true, if_false, Except.ok.injEq] at h
      exact ⟨⟨htype, hnan⟩, h.symm⟩
  case string.string s =>
    cases hw : c.width with
    | none => simp [hw] at h
    | some w =>
      simp only [hw, Except.ok.injEq] at h
      exact h ▸ hwidth _ htype hw
  case string.null =>
    cases hw : c.width with
    | none => simp [hw] at h
    | some w =>
      simp only [hw, Except.ok.injEq] at h
      simpa only [Cell.ofValue, htype, h] using hwidth [] htype hw

/-! ### Nulls -/

/-- The number of sixteen bits that has the given ones from its bit `15 - place` down and no others
set. -/
def bitsFrom (place : Nat) : List Bool → Nat
  | [] => 0
  | b :: bs => (if b then Nat.pow 2 (15 - place) else 0) + bitsFrom (place + 1) bs

theorem bitsFrom_lt (place : Nat) (bits : List Bool) (h : place + bits.length ≤ 16) :
    bitsFrom place bits < Nat.pow 2 (16 - place) := by
  induction bits generalizing place with
  | nil => exact Nat.pow_pos (by decide)
  | cons b bs ih =>
    rw [List.length_cons] at h
    have ih := ih (place + 1) (by omega)
    obtain ⟨k, hk⟩ : ∃ k, 15 - place = k := ⟨_, rfl⟩
    rw [show 16 - (place + 1) = k by omega] at ih
    rw [bitsFrom, hk, show 16 - place = k + 1 by omega]
    show _ < Nat.pow 2 k * 2
    split <;> omega

/-- The number determines the bits. -/
theorem bitsFrom_inj (place : Nat) {bits bits' : List Bool} (hlen : bits.length = bits'.length)
    (h : place + bits.length ≤ 16) (heq : bitsFrom place bits = bitsFrom place bits') :
    bits = bits' := by
  induction bits generalizing place bits' with
  | nil => exact (List.length_eq_zero_iff.1 hlen.symm).symm
  | cons b bs ih =>
    cases bits' with
    | nil => simp at hlen
    | cons b' bs' =>
      simp only [List.length_cons, Nat.add_right_cancel_iff] at hlen h
      have hlt := bitsFrom_lt (place + 1) bs (by omega)
      have hlt' := bitsFrom_lt (place + 1) bs' (by omega)
      rw [show 16 - (place + 1) = 15 - place by omega] at hlt hlt'
      -- the lower bits together stay below the first one
      have hfirst : b = b' := by
        simp only [bitsFrom] at heq
        cases b <;> cases b'
        case false.false | true.true => rfl
        case false.true | true.false =>
          simp only [if_true, Bool.false_eq_true, if_false] at heq
          omega
      subst hfirst
      rw [ih (place + 1) hlen (by omega) (Nat.add_left_cancel heq)]

/-- Whether a row has a null under a column. -/
def isNullAt (row : Row) (c : IndexColumn) : Bool := decide (row.get? c.name = some .null)

/-- Where the columns that admit nulls have them. -/
def nulls (row : Row) (columns : List IndexColumn) : List Bool :=
  (columns.filter (·.nullable)).map (isNullAt row)

/-- The bitmap of the nulls, as a number of sixteen bits. -/
def nullBitmap (row : Row) (columns : List IndexColumn) : Nat := bitsFrom 0 (nulls row columns)

/-! ### Rows -/

/-- What a row has under columns. -/
def cells (row : Row) (columns : List IndexColumn) : List Cell :=
  columns.map fun c => .ofValue c ((row.get? c.name).getD .null)

/-- A row has something under a column that fits into it. -/
structure Supplies (row : Row) (c : IndexColumn) (v : Value) : Prop where
  value : row.get? c.name = some v
  admitted : v = .null → c.nullable = true
  fits : (Cell.ofValue c v).FitsIn c

variable {row : Row} {columns : List IndexColumn}

/-- The first column takes the first bit if it admits nulls. -/
theorem nullBits_cons {c : IndexColumn} {v : Value} (h : Supplies row c v) (place : Nat) :
    bitsFrom place (nulls row (c :: columns))
      = (if v.isNull then Nat.pow 2 (15 - place) else 0) +
        bitsFrom (if c.nullable then place + 1 else place) (nulls row columns) := by
  have hnull : isNullAt row c = v.isNull := by
    rw [isNullAt, h.value]
    cases v <;> simp [Value.isNull]
  cases hnullable : c.nullable with
  | true => simp [nulls, hnullable, bitsFrom, hnull]
  | false =>
    have hv : v.isNull = false := by
      cases v with
      | null => exact absurd (h.admitted rfl) (by simp [hnullable])
      | _ => rfl
    simp [nulls, hnullable, hv]

theorem of_columnValue {c : IndexColumn} {v : Value} (h : columnValue row c = .ok v) :
    row.get? c.name = some v ∧ (v = .null → c.nullable = true) := by
  unfold columnValue at h
  cases hv : row.get? c.name with
  | none => simp [hv] at h
  | some v' =>
    simp only [hv] at h
    split at h
    · simp at h
    · rename_i hnull
      obtain rfl := Except.ok.inj h
      exact ⟨rfl, fun hv => by simpa [hv, Value.isNull] using hnull⟩

/-- The columns add the bytes of their cells and the bits of their nulls. -/
theorem form_of_ofColumns {place : Nat} {bytes : Bytes} {bitmap : Nat}
    (h : ofColumns row place columns = .ok (bytes, bitmap)) :
    (∀ c ∈ columns, ∃ v, Supplies row c v) ∧ bytes = (cells row columns).flatMap Cell.bytes ∧
      bitmap = bitsFrom place (nulls row columns) := by
  induction columns generalizing place bytes bitmap with
  | nil =>
    obtain ⟨rfl, rfl⟩ := Prod.mk.inj (Except.ok.inj h)
    exact ⟨by simp, rfl, rfl⟩
  | cons c cs ih =>
    rw [ofColumns] at h
    cases hv : columnValue row c with
    | error e => simp [hv, bind, Except.bind] at h
    | ok v =>
      cases hbytes : ofValue c v with
      | error e => simp [hv, hbytes, bind, Except.bind] at h
      | ok front =>
        cases hrest : ofColumns row (if c.nullable then place + 1 else place) cs with
        | error e => simp [hv, hbytes, hrest, bind, Except.bind] at h
        | ok p =>
          obtain ⟨rest, bitmap'⟩ := p
          simp only [hv, hbytes, hrest, bind, Except.bind, pure, Except.pure, Except.ok.injEq,
            Prod.mk.injEq] at h
          obtain ⟨rfl, rfl⟩ := h
          obtain ⟨hvalue, hadmitted⟩ := of_columnValue hv
          obtain ⟨hfits, rfl⟩ := form_of_ofValue hbytes
          obtain ⟨hall, rfl, rfl⟩ := ih hrest
          have hsupplies : Supplies row c v := ⟨hvalue, hadmitted, hfits⟩
          refine ⟨List.forall_mem_cons.2 ⟨⟨v, hsupplies⟩, hall⟩, ?_,
            (nullBits_cons hsupplies place).symm⟩
          simp [cells, hvalue]

/-- The bytes behind the columns. -/
def tail (row : Row) (columns : List IndexColumn) : Bytes :=
  if columns.any (·.nullable) then Bytes.bigEndian 2 (nullBitmap row columns) else []

/-- A row that has an image supplies all columns, and its image is the cells and the bitmap. -/
theorem form_of_ofRow {image : Bytes} (h : ofRow row columns = .ok image) :
    columns.countP (·.nullable) ≤ maxNullable ∧ (∀ c ∈ columns, ∃ v, Supplies row c v) ∧
      image = (cells row columns).flatMap Cell.bytes ++ tail row columns := by
  rw [ofRow] at h
  by_cases hmany : maxNullable < columns.countP (·.nullable)
  · simp [if_pos hmany] at h
  · rw [if_neg hmany] at h
    cases hcolumns : ofColumns row 0 columns with
    | error e => simp [hcolumns, bind, Except.bind] at h
    | ok p =>
      obtain ⟨bytes, bitmap⟩ := p
      simp only [hcolumns, bind, Except.bind, pure, Except.pure, Except.ok.injEq] at h
      obtain ⟨hall, rfl, rfl⟩ := form_of_ofColumns hcolumns
      refine ⟨Nat.le_of_not_lt hmany, hall, ?_⟩
      rw [← h, tail, nullBitmap]
      cases columns.any (·.nullable) <;> simp

/-- The cell under a column that a row supplies fits into the column. -/
theorem fits_of_supplies {c : IndexColumn} (h : ∃ v, Supplies row c v) :
    (Cell.ofValue c ((row.get? c.name).getD .null)).FitsIn c := by
  obtain ⟨v, hv⟩ := h
  rw [hv.value]
  exact hv.fits

/-- The bytes of the cells have the sizes of their columns. -/
theorem length_flatMap_cells (h : ∀ c ∈ columns, ∃ v, Supplies row c v) :
    ((cells row columns).flatMap Cell.bytes).length = (columns.map IndexColumn.size).sum := by
  rw [List.length_flatMap, cells, List.map_map]
  exact congrArg List.sum (List.map_congr_left fun c hc =>
    Cell.length_bytes (fits_of_supplies (h c hc)))

/-- The length of an image is fixed by its columns. -/
theorem length_of_ofRow {image : Bytes} (h : ofRow row columns = .ok image) :
    image.length = (columns.map IndexColumn.size).sum +
      (if columns.any (·.nullable) then 2 else 0) := by
  obtain ⟨-, hall, rfl⟩ := form_of_ofRow h
  rw [List.length_append, length_flatMap_cells hall, tail]
  cases columns.any (·.nullable) <;> simp

end Image

end EdgeDeletion
