/-
The order of images and what they keep of a row.

Images under the same columns are compared byte by byte, and that is the order of the
columns: the first column in which the rows differ decides, and where they differ in no
column, the bitmap of the nulls does.

* `before_bytes_iff` — the bytes of cells of a column are ordered like the cells;
* `before_flatMap_iff` — and those of several columns like the first cells that differ;
* `same_iff` — equal cells and equal nulls are equal values;
* `images_ordered` — the order of images, and when two are equal.
-/
import EdgeDeletion.Proofs.DoubleOrder
import EdgeDeletion.Proofs.ImageForm

namespace EdgeDeletion

open KeyOrder (before)

namespace Image

/-! ### Cells in order -/

namespace Cell

/-- The order of cells of one column: false before true, numbers by their value, the negative zero
before the positive one, texts by their bytes. -/
def Before : Cell → Cell → Prop
  | .bool a, .bool b => a = false ∧ b = true
  | .int i, .int j => i.toInt < j.toInt
  | .float a, .float b => a.Before b
  | .text s, .text t => before s t = true
  | _, _ => False

variable {c : IndexColumn} {x y : Cell}

/-- The bytes of the cells of a column are ordered like the cells. -/
theorem before_bytes_iff (hx : x.FitsIn c) (hy : y.FitsIn c) :
    before x.bytes y.bytes = true ↔ x.Before y := by
  cases x <;> cases y
  case bool.bool a b =>
    have hbools : ∀ a b : Bool, before [if a then (1 : UInt8) else 0] [if b then 1 else 0] = true ↔
        a = false ∧ b = true := by decide
    exact hbools a b
  case int.int i j =>
    rw [bytes, bytes, Ordered.before_ofInt64]
    exact decide_eq_true_iff
  case float.float a b => exact Ordered.before_ofDouble hx.2 hy.2
  case text.text s t => exact Iff.rfl
  -- cells of two types do not fit into one column
  all_goals simp_all [FitsIn]

theorem bytes_inj (hx : x.FitsIn c) (hy : y.FitsIn c) (h : x.bytes = y.bytes) : x = y := by
  cases x <;> cases y
  case bool.bool a b => cases a <;> cases b <;> simp_all [bytes]
  case int.int i j => exact congrArg Cell.int (Ordered.ofInt64_inj h)
  case float.float a b => exact congrArg Cell.float (Ordered.ofDouble_inj h)
  case text.text s t => exact congrArg Cell.text h
  all_goals simp_all [FitsIn]

end Cell

section Columns

variable {columns : List IndexColumn} {f g : IndexColumn → Cell}
  (hf : ∀ c ∈ columns, (f c).FitsIn c) (hg : ∀ c ∈ columns, (g c).FitsIn c)
include hf hg

/-- The bytes of several columns are ordered like the first cells that differ. -/
theorem before_flatMap_iff :
    before ((columns.map f).flatMap Cell.bytes) ((columns.map g).flatMap Cell.bytes) = true ↔
      List.Lex Cell.Before (columns.map f) (columns.map g) := by
  induction columns with
  | nil => exact ⟨nofun, nofun⟩
  | cons c cs ih =>
    obtain ⟨hfc, hfs⟩ := List.forall_mem_cons.1 hf
    obtain ⟨hgc, hgs⟩ := List.forall_mem_cons.1 hg
    have hlen : (f c).bytes.length = (g c).bytes.length := by
      rw [Cell.length_bytes hfc, Cell.length_bytes hgc]
    have hrest := ih hfs hgs
    simp only [List.map_cons, List.flatMap_cons]
    rw [KeyOrder.before_append hlen, KeyOrder.before_pair]
    simp only [Bool.or_eq_true, Bool.and_eq_true, Bool.not_eq_true', hrest,
      Cell.before_bytes_iff hfc hgc]
    constructor
    · rintro (hfirst | ⟨hafter, hlex⟩)
      · exact .rel hfirst
      · cases hbefore : before (f c).bytes (g c).bytes with
        | true => exact .rel ((Cell.before_bytes_iff hfc hgc).1 hbefore)
        | false =>
          rw [Cell.bytes_inj hfc hgc (KeyOrder.connected hbefore hafter)]
          exact .cons hlex
    · generalize hfirst : f c = x
      generalize hother : g c = y
      intro h
      cases h with
      | rel hbefore => exact .inl hbefore
      | cons hlex => exact .inr ⟨KeyOrder.irrefl _, hlex⟩

/-- The bytes of several columns determine the cells. -/
theorem flatMap_bytes_inj
    (h : (columns.map f).flatMap Cell.bytes = (columns.map g).flatMap Cell.bytes) :
    columns.map f = columns.map g := by
  induction columns with
  | nil => rfl
  | cons c cs ih =>
    obtain ⟨hfc, hfs⟩ := List.forall_mem_cons.1 hf
    obtain ⟨hgc, hgs⟩ := List.forall_mem_cons.1 hg
    simp only [List.map_cons, List.flatMap_cons] at h ⊢
    obtain ⟨hfirst, hrest⟩ :=
      List.append_inj h (by rw [Cell.length_bytes hfc, Cell.length_bytes hgc])
    rw [Cell.bytes_inj hfc hgc hfirst, ih hfs hgs hrest]

end Columns

/-! ### Rows in order -/

variable {columns : List IndexColumn} {row row' : Row} {image image' : Bytes}

/-- Two values are both null, or neither is and they are equal; texts are compared at a width, and
floats bit by bit, which tells the two zeros apart. -/
def SameAt (width : Nat) : Value → Value → Prop
  | .null, .null => True
  | .bool a, .bool b => a = b
  | .int i, .int j => i = j
  | .float a, .float b => a = b
  | .string s, .string t => Bytes.fit width (Bytes.ofText s) = Bytes.fit width (Bytes.ofText t)
  | _, _ => False

/-- Values that are the same have the same cell, and both are null or none is. -/
theorem same_iff {c : IndexColumn} {v w : Value} (hv : (Cell.ofValue c v).FitsIn c)
    (hw : (Cell.ofValue c w).FitsIn c) :
    SameAt c.textWidth v w ↔ Cell.ofValue c v = Cell.ofValue c w ∧ (v = .null ↔ w = .null) := by
  cases v <;> cases w <;> simp_all [SameAt, Cell.ofValue, Cell.FitsIn]

/-- The bitmap of the nulls has two bytes. -/
theorem nullBitmap_lt (hmany : columns.countP (·.nullable) ≤ maxNullable) (row : Row) :
    nullBitmap row columns < Nat.pow 256 2 := by
  refine bitsFrom_lt 0 (nulls row columns) ?_
  simpa [nulls, List.countP_eq_length_filter, maxNullable] using hmany

/-- Without columns that admit nulls there is no bitmap. -/
theorem nulls_of_none (hnone : columns.any (·.nullable) = false) (row : Row) :
    nulls row columns = [] := by
  have hfilter : columns.filter (·.nullable) = [] := by
    simpa [List.filter_eq_nil_iff] using hnone
  rw [nulls, hfilter, List.map_nil]

/-- The tails compare like the bitmaps of the nulls. -/
theorem before_tail (hmany : columns.countP (·.nullable) ≤ maxNullable) (row row' : Row) :
    before (tail row columns) (tail row' columns)
      = before (nullBitmap row columns) (nullBitmap row' columns) := by
  cases hany : columns.any (·.nullable) with
  | true =>
    simp only [tail, hany, if_true,
      Bytes.before_bigEndian (nullBitmap_lt hmany row) (nullBitmap_lt hmany row')]
  | false =>
    simp only [tail, hany, nullBitmap, nulls_of_none hany]
    rfl

/-- Equal tails are bitmaps of equal nulls. -/
theorem nulls_of_tail (hmany : columns.countP (·.nullable) ≤ maxNullable)
    (h : tail row columns = tail row' columns) : nulls row columns = nulls row' columns := by
  have hab := before_tail hmany row row'
  have hba := before_tail hmany row' row
  rw [h, KeyOrder.irrefl] at hab hba
  have hbitmap : nullBitmap row columns = nullBitmap row' columns :=
    KeyOrder.connected hab.symm hba.symm
  refine bitsFrom_inj 0 (by simp [nulls]) ?_ hbitmap
  simpa [nulls, List.countP_eq_length_filter, maxNullable] using hmany

/-- Rows with equal cells and equal nulls have the same under every column. -/
theorem cells_nulls_eq_iff (hall : ∀ c ∈ columns, ∃ v, Supplies row c v)
    (hall' : ∀ c ∈ columns, ∃ v, Supplies row' c v) :
    cells row columns = cells row' columns ∧ nulls row columns = nulls row' columns ↔
      ∀ c ∈ columns, ∃ v w, row.get? c.name = some v ∧ row'.get? c.name = some w ∧
        SameAt c.textWidth v w := by
  simp only [cells, nulls, List.map_inj_left, List.mem_filter, ← forall₂_and, and_imp]
  refine forall₂_congr fun c hc => ?_
  obtain ⟨v, hv⟩ := hall c hc
  obtain ⟨w, hw⟩ := hall' c hc
  have hsame := same_iff hv.fits hw.fits
  simp only [hv.value, hw.value, Option.getD_some, isNullAt, Option.some.injEq, decide_eq_decide,
    exists_eq_left', exists_and_left, hsame]
  refine and_congr_right fun _ => ⟨fun hnulls => ?_, fun hnulls _ => hnulls⟩
  -- a column that admits no nulls has none in either row
  cases hnullable : c.nullable with
  | true => exact hnulls hnullable
  | false =>
    have hv' : v ≠ .null := fun h => by simp [hv.admitted h] at hnullable
    have hw' : w ≠ .null := fun h => by simp [hw.admitted h] at hnullable
    simp [hv', hw']

/-- **Images are ordered like the columns and keep all but what lies beyond the widths.**  The
images of two rows under the same columns have one length.  The first column in which the rows
differ decides their order, where false comes before true, numbers are compared as numbers, with
the negative zero before the positive one, texts by their bytes at the width of the column, and a
null counts as false, zero or the empty text; if there is none, the bitmaps of the nulls decide.
The images are equal if and only if both rows have the same under each column. -/
theorem images_ordered {columns : List IndexColumn} {row row' : Row} {image image' : Bytes}
    (h : ofRow row columns = .ok image) (h' : ofRow row' columns = .ok image') :
    image.length = image'.length ∧
    (before image image' = true ↔
      List.Lex Cell.Before (cells row columns) (cells row' columns) ∨
        (cells row columns = cells row' columns ∧
          nullBitmap row columns < nullBitmap row' columns)) ∧
    (image = image' ↔ ∀ c ∈ columns, ∃ v w, row.get? c.name = some v ∧
      row'.get? c.name = some w ∧ SameAt c.textWidth v w) := by
  refine ⟨(length_of_ofRow h).trans (length_of_ofRow h').symm, ?_⟩
  obtain ⟨hmany, hall, rfl⟩ := form_of_ofRow h
  obtain ⟨-, hall', rfl⟩ := form_of_ofRow h'
  have hfits := fun c hc => fits_of_supplies (hall c hc)
  have hfits' := fun c hc => fits_of_supplies (hall' c hc)
  have hlen : ((cells row columns).flatMap Cell.bytes).length
      = ((cells row' columns).flatMap Cell.bytes).length :=
    (length_flatMap_cells hall).trans (length_flatMap_cells hall').symm
  refine ⟨?_, ?_⟩
  · rw [KeyOrder.before_append hlen, KeyOrder.before_pair, before_tail hmany]
    simp only [Bool.or_eq_true, Bool.and_eq_true, Bool.not_eq_true']
    have hcells := before_flatMap_iff hfits hfits'
    constructor
    · rintro (hbefore | ⟨hafter, hbitmap⟩)
      · exact .inl (hcells.1 hbefore)
      · cases hbefore : before ((cells row columns).flatMap Cell.bytes)
            ((cells row' columns).flatMap Cell.bytes) with
        | true => exact .inl (hcells.1 hbefore)
        | false =>
          exact .inr ⟨flatMap_bytes_inj hfits hfits' (KeyOrder.connected hbefore hafter),
            of_decide_eq_true hbitmap⟩
    · rintro (hlex | ⟨hsame, hbitmap⟩)
      · exact .inl (hcells.2 hlex)
      · rw [hsame]
        exact .inr ⟨KeyOrder.irrefl _, decide_eq_true hbitmap⟩
  · rw [← cells_nulls_eq_iff hall hall']
    constructor
    · intro heq
      obtain ⟨hbytes, htail⟩ := List.append_inj heq hlen
      exact ⟨flatMap_bytes_inj hfits hfits' hbytes, nulls_of_tail hmany htail⟩
    · rintro ⟨hcells, hnulls⟩
      rw [hcells, tail, tail, nullBitmap, nullBitmap, hnulls]

/-- Columns for a weight that may be missing and the first three bytes of a label. -/
def sampleColumns : List IndexColumn :=
  [⟨⟨"weight", .int, true⟩, none⟩, ⟨⟨"label", .string, false⟩, some 3⟩]

/-- A row without a weight comes after one whose weight is zero, where only the bitmap tells the
two apart. -/
theorem images_ordered_sample :
    ∃ image image',
      ofRow ⟨[("weight", .int 0), ("label", .string "abcd")]⟩ sampleColumns = .ok image ∧
      ofRow ⟨[("weight", .null), ("label", .string "abc")]⟩ sampleColumns = .ok image' ∧
      before image image' = true ∧ image ≠ image' := by
  have h : ofRow ⟨[("weight", .int 0), ("label", .string "abcd")]⟩ sampleColumns
      = .ok [128, 0, 0, 0, 0, 0, 0, 0, 97, 98, 99, 0, 0] := by decide +kernel
  have h' : ofRow ⟨[("weight", .null), ("label", .string "abc")]⟩ sampleColumns
      = .ok [128, 0, 0, 0, 0, 0, 0, 0, 97, 98, 99, 128, 0] := by decide +kernel
  obtain ⟨-, horder, hequal⟩ := images_ordered h h'
  refine ⟨_, _, h, h', horder.2 (.inr ⟨by decide +kernel, by decide +kernel⟩), fun heq => ?_⟩
  -- the weights are not the same
  obtain ⟨v, w, hv, hw, hsame⟩ := hequal.1 heq _ (List.mem_cons_self ..)
  obtain rfl : .int 0 = v := Option.some.inj hv
  obtain rfl : .null = w := Option.some.inj hw
  exact hsame

end Image

end EdgeDeletion
