/-
Rows and the byte strings near them.

A row may be read from several byte strings, since any byte except zero says that
something is true.  They all settle to the one that is written (`SettlesTo`).  No byte
string that is shorter or longer than one of these is a row of the schema, and the reader
by positions finds every byte that it asks for.

* `scan`, `scan_eq` — the reader of rows by positions gives what the reader of the front
  gives, without a read out of range;
* `settlesTo_of_decode` — a byte string that is read settles to the row written anew;
* `decode_eq_of_settlesTo` — it is read as that row is;
* `row_grammar_exact` — the byte strings that are read, and their neighbours.
-/
import EdgeDeletion.Proofs.Positions
import EdgeDeletion.Proofs.RowCodec

namespace EdgeDeletion.Row

open Bytes

/-! ### The reader by positions -/

section Scan

variable (payload : Bytes)

/-- Reads bytes into an array. -/
def scanArray (n : Nat) : Scan RowError Bytes := do
  let part ← Scan.take payload n .fieldTruncated
  Scan.fill n part

/-- Reads the payload of a value that is no null. -/
def scanPayload (type : ColumnType) : Scan RowError Value := do
  match type with
  | .bool =>
    let part ← Scan.take payload 1 .fieldTruncated
    let b ← Scan.element part 0
    pure (.bool (b != 0))
  | .int =>
    let part ← scanArray payload 8
    pure (.int (UInt64.ofNat (ofBigEndian part)).toInt64)
  | .float =>
    let part ← scanArray payload 8
    pure (.float ⟨UInt64.ofNat (ofBigEndian part)⟩)
  | .string =>
    let count ← scanArray payload 4
    let body ← Scan.take payload (ofBigEndian count) .fieldTruncated
    match toText? body with
    | some s => pure (.string s)
    | none => Scan.fail .notText

/-- Reads the value of a column. -/
def scanField (type : ColumnType) : Scan RowError Value := do
  let tag ← Scan.next payload .tagMissing
  if tag = nullTag then pure .null
  else if ColumnType.ofCode? tag = some type then scanPayload payload type
  else Scan.fail .tagMismatch

/-- The loop over the columns. -/
def scanFields : List Column → Scan RowError (List (String × Value))
  | [] => pure []
  | c :: cs => do
    let v ← scanField payload c.type
    let fields ← scanFields cs
    pure ((c.name, v) :: fields)

/-- Reads the fields behind the head of a row, to the end. -/
def scanBody (columns : List Column) : Scan RowError Row := do
  Scan.moveTo 3
  let fields ← scanFields payload columns
  let i ← Scan.position
  if i = payload.length then pure ⟨fields⟩ else Scan.fail .trailingBytes

/-- Reads a row: the three bytes of its head are read once it is known that they are there, and so
are the columns that it counts. -/
def scan (schema : EdgeSchema) : Scan RowError Row := do
  if payload.length < 3 then Scan.fail .truncated
  else
    let form ← Scan.element payload 0
    if form ≠ format then Scan.fail .unknownFormat
    else
      let high ← Scan.element payload 1
      let low ← Scan.element payload 2
      let count := ofBigEndian [high, low]
      if schema.length < count then Scan.fail .tooManyFields
      else
        let columns ← Scan.slice schema 0 count
        scanBody payload columns

end Scan

variable {payload : Bytes}

theorem follows_takeField (n : Nat) :
    Scan.Follows payload (Scan.take payload n .fieldTruncated) (takeField n) :=
  .congr (.take n RowError.fieldTruncated) fun _ => rfl

theorem follows_scanArray (n : Nat) :
    Scan.Follows payload (scanArray payload n) (takeField n) := by
  refine .congr (.bind (g := fun part rest => .ok (part, rest)) (follows_takeField n)
    fun part hpart => ?_) fun bs => ?_
  · obtain ⟨bs, rest, hpart⟩ := hpart
    exact .fill (takeField_eq_ok hpart).2
  · cases takeField n bs with
    | error e => rfl
    | ok p => rfl

theorem follows_scanPayload (type : ColumnType) :
    Scan.Follows payload (scanPayload payload type) (decodePayload type) := by
  cases type with
  | bool =>
    refine .congr (.bind (g := fun part rest => .ok (.bool (part != [0]), rest))
      (follows_takeField 1) fun part hpart => ?_) fun bs => rfl
    -- the part has the one element that is asked for
    obtain ⟨bs, rest, hpart⟩ := hpart
    obtain ⟨b, rfl⟩ := List.length_eq_one_iff.1 (takeField_eq_ok hpart).2
    refine .congr (.bind (.element (x := b) rfl) fun b _ =>
      .pure (Value.bool (b != 0))) fun bs => ?_
    simp [bind, Except.bind, bne]
  | int => exact .congr (.bind (follows_scanArray 8) fun _ _ => .pure _) fun bs => rfl
  | float => exact .congr (.bind (follows_scanArray 8) fun _ _ => .pure _) fun bs => rfl
  | string =>
    refine .congr (.bind (follows_scanArray 4) fun count _ =>
      .bind (g := fun body rest => match toText? body with
        | some s => .ok (Value.string s, rest)
        | none => .error .notText)
        (follows_takeField (ofBigEndian count)) fun body _ => ?_) fun bs => rfl
    cases toText? body with
    | some s => exact .pure _
    | none => exact .fail _

theorem follows_scanField (type : ColumnType) :
    Scan.Follows payload (scanField payload type) (decodeField type) := by
  refine .congr (.bind (.next RowError.tagMissing) fun tag _ => .ite (fun _ => .pure Value.null)
    fun _ => .ite (fun _ => follows_scanPayload type) fun _ => .fail _) fun bs => ?_
  cases bs with
  | nil => rfl
  | cons tag bs => rfl

theorem follows_scanFields (cs : List Column) :
    Scan.Follows payload (scanFields payload cs) (decodeFields cs) := by
  induction cs with
  | nil => exact .pure _
  | cons c cs ih =>
    refine .congr (.bind (follows_scanField c.type) fun v _ => .bind ih fun fields _ =>
      .pure ((c.name, v) :: fields)) fun bs => ?_
    simp only [decodeFields, bind, Except.bind]
    cases decodeField c.type bs with
    | error e => rfl
    | ok p =>
      obtain ⟨v, rest⟩ := p
      cases decodeFields cs rest with
      | error e => rfl
      | ok p => rfl

theorem scanBody_eq (columns : List Column) (h : 3 ≤ payload.length) :
    ∃ c, scanBody payload columns ⟨0, 0⟩ = some (match decodeFields columns (payload.drop 3) with
      | .error e => .error e
      | .ok (fields, []) => .ok ⟨fields⟩
      | .ok (_, _ :: _) => .error .trailingBytes, c) := by
  cases hfields : decodeFields columns (payload.drop 3) with
  | error e =>
    obtain ⟨i, hrun⟩ := (follows_scanFields columns).error (c := ⟨3, 0⟩) h hfields
    exact ⟨⟨i, 0⟩, by simp [scanBody, bind, Scan.moveTo, hrun]⟩
  | ok p =>
    obtain ⟨fields, rest⟩ := p
    obtain ⟨i, hi, hrun, hrest⟩ := (follows_scanFields columns).ok (c := ⟨3, 0⟩) h hfields
    refine ⟨⟨i, 0⟩, ?_⟩
    -- the loop has left nothing if it stands at the end
    have hend : i = payload.length ↔ rest = [] := by
      rw [← hrest, List.drop_eq_nil_iff]
      omega
    cases rest with
    | nil => simp [scanBody, bind, Scan.moveTo, hrun, Scan.position, hend.2 rfl, pure]
    | cons b rest => simp [scanBody, bind, Scan.moveTo, hrun, Scan.position, hend, Scan.fail]

/-- The reader by positions gives what the reader of the front gives.  It never reads out of
range. -/
theorem scan_eq (schema : EdgeSchema) (payload : Bytes) :
    ∃ c, scan payload schema ⟨0, 0⟩ = some (decode schema payload, c) := by
  rcases payload with _ | ⟨form, _ | ⟨high, _ | ⟨low, body⟩⟩⟩
  iterate 3 exact ⟨_, rfl⟩
  · have hlen : 3 ≤ (form :: high :: low :: body).length := Nat.le_add_left ..
    rw [scan, if_neg (Nat.not_lt.2 hlen), decode]
    by_cases hformat : form = format
    · by_cases hcount : schema.length < ofBigEndian [high, low]
      · exact ⟨⟨0, 0⟩, by simp [bind, Scan.element, hformat, hcount, Scan.fail]⟩
      · have hrange : ofBigEndian [high, low] ≤ schema.length := Nat.le_of_not_lt hcount
        obtain ⟨c, hrun⟩ := scanBody_eq (schema.take (ofBigEndian [high, low])) hlen
        rw [if_neg (not_not_intro hformat), if_neg hcount]
        refine ⟨c, .trans ?_ hrun⟩
        simp [bind, Scan.element, Scan.slice, hformat, hcount, hrange]
    · exact ⟨⟨0, 0⟩, by simp [bind, Scan.element, hformat, Scan.fail]⟩

/-! ### Byte strings of one row -/

/-- A field of a byte string and the one that is written in its place. -/
inductive FieldSettles (type : ColumnType) : Bytes → Bytes → Prop
  /-- A field that is written stays as it is. -/
  | same {v : Value} {text : Bytes} (h : encodeField type v = .ok text) :
    FieldSettles type text text
  /-- A truth value that is not zero becomes one. -/
  | truth {b : UInt8} (htype : type = .bool) (h : b ≠ 0) :
    FieldSettles type [ColumnType.bool.code, b] [ColumnType.bool.code, 1]

/-- The fields of columns, settled one by one. -/
inductive FieldsSettle : List Column → Bytes → Bytes → Prop
  | nil : FieldsSettle [] [] []
  | cons {c : Column} {cs : List Column} {text text' rest rest' : Bytes}
    (hfield : FieldSettles c.type text text') (hfields : FieldsSettle cs rest rest') :
    FieldsSettle (c :: cs) (text ++ rest) (text' ++ rest')

/-- A byte string is a row of the columns but for its truth values, and the other one is the row:
they have the head in common. -/
def SettlesTo (columns : List Column) (data row : Bytes) : Prop :=
  ∃ text text', FieldsSettle columns text text' ∧
    data = format :: (bigEndian 2 columns.length ++ text) ∧
    row = format :: (bigEndian 2 columns.length ++ text')

theorem form_of_fieldSettles {type : ColumnType} {text text' : Bytes}
    (h : FieldSettles type text text') : ∃ v, FieldForm type v text ∧ FieldForm type v text' := by
  cases h with
  | same h => exact ⟨_, form_of_encodeField h, form_of_encodeField h⟩
  | @truth b htype h =>
    subst htype
    have hb : (b != 0) = true := bne_iff_ne.2 h
    exact ⟨.bool true, .payload (hb ▸ .bool b), .payload (.bool 1)⟩

theorem form_of_fieldsSettle {cs : List Column} {text text' : Bytes}
    (h : FieldsSettle cs text text') :
    ∃ fields, FieldsForm cs fields text ∧ FieldsForm cs fields text' := by
  induction h with
  | nil => exact ⟨[], .nil, .nil⟩
  | cons hfield _ ih =>
    obtain ⟨v, hv, hv'⟩ := form_of_fieldSettles hfield
    obtain ⟨fields, hfields, hfields'⟩ := ih
    exact ⟨_, .cons hv hfields, .cons hv' hfields'⟩

/-- A field of the form settles to the field that is written. -/
theorem settles_of_form {type : ColumnType} {v : Value} {text : Bytes}
    (h : FieldForm type v text) :
    ∃ text', encodeField type v = .ok text' ∧ FieldSettles type text text' := by
  cases h with
  | null => exact ⟨_, rfl, .same (v := .null) rfl⟩
  | payload h =>
    cases h with
    | bool b =>
      by_cases hb : b = 0
      · subst hb
        exact ⟨_, rfl, .same (v := .bool false) rfl⟩
      · have htrue : (b != 0) = true := bne_iff_ne.2 hb
        exact ⟨[ColumnType.bool.code, 1], by rw [htrue]; rfl, .truth rfl hb⟩
    | int i => exact ⟨_, rfl, .same (v := .int i) rfl⟩
    | float d => exact ⟨_, rfl, .same (v := .float d) rfl⟩
    | @string s hlt =>
      have hwrite : encodeField .string (.string s)
          = .ok (ColumnType.string.code :: (bigEndian 4 (ofText s).length ++ ofText s)) := by
        simp [encodeField, hlt]
      exact ⟨_, hwrite, .same hwrite⟩

/-- Fields of the form settle to those that are written of their values. -/
theorem settle_of_form {props fields : List (String × Value)} {cs : List Column} {text : Bytes}
    (h : FieldsForm cs fields text) (hprops : supplied props cs = fields) :
    ∃ text', encodeFields props cs = .ok text' ∧ FieldsSettle cs text text' := by
  induction h with
  | nil => exact ⟨[], rfl, .nil⟩
  | @cons c cs v fields text rest hfield _ ih =>
    simp only [supplied, List.map_cons, List.cons.injEq, Prod.mk.injEq, true_and] at hprops
    obtain ⟨rfl, hfields⟩ := hprops
    obtain ⟨text', hwrite, hsettles⟩ := settles_of_form hfield
    obtain ⟨rest', hwrites, hsettle⟩ := ih hfields
    exact ⟨text' ++ rest', by simp [encodeFields, hwrite, hwrites, Except.map],
      .cons hsettles hsettle⟩

/-- Values under names that differ are found under these names. -/
theorem valueOf?_of_mem {fields : List (String × Value)} (hnodup : (fields.map Prod.fst).Nodup)
    {p : String × Value} (h : p ∈ fields) : valueOf? p.1 fields = some p.2 := by
  induction fields with
  | nil => simp at h
  | cons q fields ih =>
    rw [List.map_cons, List.nodup_cons] at hnodup
    rw [valueOf?]
    rcases List.mem_cons.1 h with rfl | hmem
    · exact if_pos rfl
    · have hne : q.1 ≠ p.1 := fun heq => hnodup.1 (heq ▸ List.mem_map_of_mem hmem)
      rw [if_neg hne, ih hnodup.2 hmem]

theorem supplied_self {cs : List Column} {fields : List (String × Value)}
    (hnames : fields.map Prod.fst = cs.map Column.name) (hnodup : (cs.map Column.name).Nodup) :
    supplied fields cs = fields := by
  have hfound : ∀ p ∈ fields, (p.1, (valueOf? p.1 fields).getD .null) = p := by
    intro p hp
    rw [valueOf?_of_mem (hnames ▸ hnodup) hp]
    rfl
  calc supplied fields cs
      = (cs.map Column.name).map fun name => (name, (valueOf? name fields).getD .null) := by
        rw [List.map_map]
        rfl
    _ = fields.map fun p => (p.1, (valueOf? p.1 fields).getD .null) := by
        rw [← hnames, List.map_map]
        rfl
    _ = fields := by rw [List.map_congr_left hfound, List.map_id']

variable {schema : EdgeSchema}

/-- What is read settles to the row that is written of its values. -/
theorem settlesTo_of_decode (hnames : (schema.map Column.name).Nodup) {data : Bytes} {row : Row}
    (h : decode schema data = .ok row) :
    ∃ written, encode (schema.take row.fields.length) row.fields = .ok written ∧
      SettlesTo (schema.take row.fields.length) data written := by
  obtain ⟨hle, hlt, text, hform, rfl⟩ := form_of_decode h
  have hlen : (schema.take row.fields.length).length = row.fields.length := by
    rw [List.length_take]
    omega
  have hnodup : ((schema.take row.fields.length).map Column.name).Nodup :=
    hnames.sublist ((List.take_sublist ..).map _)
  obtain ⟨text', hwrite, hsettle⟩ := settle_of_form hform (supplied_self hform.map_fst hnodup)
  refine ⟨format :: (bigEndian 2 row.fields.length ++ text'), ?_, text, text', hsettle, ?_⟩
  · rw [encode, hlen, if_pos hlt, hwrite]
    rfl
  · rw [hlen]
    exact ⟨rfl, rfl⟩

/-- A byte string is read as the row that it settles to. -/
theorem decode_eq_of_settlesTo {k : Nat} (hk : k ≤ schema.length) (hlt : k < UInt16.size)
    {data written : Bytes} (h : SettlesTo (schema.take k) data written) :
    ∃ row, decode schema data = .ok row ∧ decode schema written = .ok row ∧
      row.fields.length = k := by
  obtain ⟨text, text', hsettle, rfl, rfl⟩ := h
  obtain ⟨fields, hform, hform'⟩ := form_of_fieldsSettle hsettle
  have hlen : fields.length = k := by
    rw [hform.length_eq, List.length_take]
    omega
  subst hlen
  have htake : (schema.take fields.length).length = fields.length := hform.length_eq.symm
  rw [htake]
  exact ⟨⟨fields⟩, decode_eq_ok_iff.2 ⟨hk, hlt, text, hform, rfl⟩,
    decode_eq_ok_iff.2 ⟨hk, hlt, text', hform', rfl⟩, rfl⟩

/-- What is written settles to itself. -/
theorem settlesTo_self {columns : List Column} {props : List (String × Value)} {written : Bytes}
    (h : encode columns props = .ok written) : SettlesTo columns written written := by
  have hsettle : ∀ {cs text}, encodeFields props cs = .ok text → FieldsSettle cs text text := by
    intro cs text hwrite
    obtain ⟨text', hwrite', hsettle⟩ := settle_of_form (form_of_encodeFields hwrite) rfl
    rw [hwrite, Except.ok.injEq] at hwrite'
    exact hwrite' ▸ hsettle
  rw [encode] at h
  split at h
  · cases hwrite : encodeFields props columns with
    | error e => simp [hwrite, Except.map] at h
    | ok text =>
      simp only [hwrite, Except.map, Except.ok.injEq] at h
      exact ⟨text, text, hsettle hwrite, h.symm, h.symm⟩
  · simp at h

/-! ### Rows and their neighbours -/

/-- A byte string that is refused, as callers see it. -/
def Corrupt (schema : EdgeSchema) (data : Bytes) : Prop :=
  ∃ e what, decode schema data = .error e ∧ e.toStorageError = .corruption what

theorem corrupt_of_error {data : Bytes} {e : RowError} (h : decode schema data = .error e) :
    Corrupt schema data := by
  obtain ⟨what, hwhat⟩ := isCorruption_of_decode h
  exact ⟨e, what, h, hwhat⟩

/-- A row is no part of a longer one. -/
theorem corrupt_append {data rest : Bytes} {row : Row} (h : decode schema data = .ok row)
    (hrest : rest ≠ []) : Corrupt schema (data ++ rest) :=
  corrupt_of_error ((decode_of_form (form_of_decode h) rest).trans (if_neg hrest))

theorem corrupt_of_prefix {data p : Bytes} {row : Row} (h : decode schema data = .ok row)
    (hp : p <+: data) (hne : p ≠ data) : Corrupt schema p := by
  obtain ⟨rest, rfl⟩ := hp
  cases hdecode : decode schema p with
  | error e => exact corrupt_of_error hdecode
  | ok row' =>
    -- what is read of the shorter one rules out the longer one
    have hrest : rest ≠ [] := fun hnil => hne (by rw [hnil, List.append_nil])
    obtain ⟨e, what, herror, -⟩ := corrupt_append hdecode hrest
    rw [h] at herror
    simp at herror

/-- **Exactly the rows of leading columns are read**, with any byte except zero for true: what is
read settles to the row of its values, and what settles to a row is read as that row is.  A byte
string that ends sooner or goes on is refused, and none is read out of range. -/
theorem row_grammar_exact (schema : EdgeSchema) (hnames : (schema.map Column.name).Nodup) :
    (∀ data row, decode schema data = .ok row →
      row.fields.length ≤ schema.length ∧
        ∃ written, encode (schema.take row.fields.length) row.fields = .ok written ∧
          SettlesTo (schema.take row.fields.length) data written) ∧
    (∀ k ≤ schema.length, ∀ props written, encode (schema.take k) props = .ok written →
      SettlesTo (schema.take k) written written ∧
      ∀ data, SettlesTo (schema.take k) data written →
        (∃ row, decode schema data = .ok row ∧ decode schema written = .ok row ∧
          row.fields.length = k) ∧
        (∀ p, p <+: data → p ≠ data → Corrupt schema p) ∧
        ∀ rest, rest ≠ [] → Corrupt schema (data ++ rest)) ∧
    ∀ data, ∃ c, scan data schema ⟨0, 0⟩ = some (decode schema data, c) := by
  refine ⟨fun data row h => ?_, fun k hk props written h => ?_, scan_eq schema⟩
  · exact ⟨(form_of_decode h).1, settlesTo_of_decode hnames h⟩
  · refine ⟨settlesTo_self h, fun data hsettles => ?_⟩
    have hlt : k < UInt16.size := by
      have hcolumns := (isOk_encode_iff.1 ⟨written, h⟩).1
      rw [List.length_take] at hcolumns
      omega
    obtain ⟨row, hdata, hwritten, hlen⟩ := decode_eq_of_settlesTo hk hlt hsettles
    exact ⟨⟨row, hdata, hwritten, hlen⟩, fun p => corrupt_of_prefix hdata,
      fun rest => corrupt_append hdata⟩

/-- A byte string of one field, in which seven stands for true. -/
theorem row_grammar_exact_sample :
    (flagAndWeight.map Column.name).Nodup ∧
    (decode flagAndWeight [1, 0, 1, 1, 7] = .ok ⟨[("flag", .bool true)]⟩ ∧
      ∃ written, encode (flagAndWeight.take 1) [("flag", .bool true)] = .ok written ∧
        SettlesTo (flagAndWeight.take 1) [1, 0, 1, 1, 7] written) ∧
    (∃ row, decode flagAndWeight [1, 0, 1, 1, 7] = .ok row ∧
      decode flagAndWeight [1, 0, 1, 1, 1] = .ok row ∧ row.fields.length = 1) ∧
    Corrupt flagAndWeight [1, 0, 1, 1] ∧ Corrupt flagAndWeight [1, 0, 1, 1, 7, 0] := by
  have hnames : (flagAndWeight.map Column.name).Nodup := by decide
  have hsettles : SettlesTo (flagAndWeight.take 1) [1, 0, 1, 1, 7] [1, 0, 1, 1, 1] :=
    ⟨[1, 7], [1, 1], .cons (.truth rfl (by decide)) .nil, rfl, rfl⟩
  obtain ⟨hsettled, hrows, -⟩ := row_grammar_exact flagAndWeight hnames
  obtain ⟨hread, hsooner, hlater⟩ := (hrows 1 (by decide) [("flag", .bool true)]
    [1, 0, 1, 1, 1] rfl).2 _ hsettles
  have hdecode : decode flagAndWeight [1, 0, 1, 1, 7] = .ok ⟨[("flag", .bool true)]⟩ := by
    simp [decode, flagAndWeight, format, ofBigEndian, decodeFields, decodeField, nullTag,
      ColumnType.ofCode?, decodePayload, takeField, take?, bind, Except.bind, pure, Except.pure,
      Except.map]
  exact ⟨hnames, ⟨hdecode, (hsettled _ _ hdecode).2⟩, hread,
    hsooner _ (by decide) (by decide), hlater [0] (by decide)⟩

end EdgeDeletion.Row
