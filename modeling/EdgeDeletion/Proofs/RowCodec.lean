/-
The bytes of rows.

A row of values has the form of a head with the number of fields, and then one field for
each of the leading columns.  A value has one field, but for the truth values: any byte
except zero says that something is true, and the writer chooses one.  The reader takes
exactly the strings of this form (`decode_eq_ok_iff`).

* `FieldForm` — the bytes of a value in a column;
* `decode_of_form` — a row is read where nothing follows it;
* `isCorruption_of_decode` — what is not read is refused as corrupt;
* `isOk_encode_iff` — what can be written;
* `rows_survive_growth` — a row that was written is read under every later schema.
-/
import EdgeDeletion.Row

namespace EdgeDeletion.Row

open Bytes

/-! ### The form of a row -/

/-- The bytes behind the tag of a value that is no null. -/
inductive PayloadForm : ColumnType → Value → Bytes → Prop
  | bool (b : UInt8) : PayloadForm .bool (.bool (b != 0)) [b]
  | int (i : Int64) : PayloadForm .int (.int i) (bigEndian 8 i.toUInt64.toNat)
  | float (d : Double) : PayloadForm .float (.float d) (bigEndian 8 d.bits.toNat)
  | string {s : String} (h : (ofText s).length < UInt32.size) :
    PayloadForm .string (.string s) (bigEndian 4 (ofText s).length ++ ofText s)

/-- The bytes of a value in a column of a type. -/
inductive FieldForm (type : ColumnType) : Value → Bytes → Prop
  | null : FieldForm type .null [nullTag]
  | payload {v : Value} {text : Bytes} (h : PayloadForm type v text) :
    FieldForm type v (type.code :: text)

/-- The bytes of the values of columns, one after the other. -/
inductive FieldsForm : List Column → List (String × Value) → Bytes → Prop
  | nil : FieldsForm [] [] []
  | cons {c : Column} {cs : List Column} {v : Value} {fields : List (String × Value)}
    {text rest : Bytes} (hfield : FieldForm c.type v text) (hfields : FieldsForm cs fields rest) :
    FieldsForm (c :: cs) ((c.name, v) :: fields) (text ++ rest)

/-- The bytes of a row of some of the leading columns of a schema. -/
def IsForm (schema : EdgeSchema) (row : Row) (data : Bytes) : Prop :=
  row.fields.length ≤ schema.length ∧ row.fields.length < UInt16.size ∧
    ∃ text, FieldsForm (schema.take row.fields.length) row.fields text ∧
      data = format :: (bigEndian 2 row.fields.length ++ text)

theorem FieldsForm.length_eq {cs : List Column} {fields : List (String × Value)} {text : Bytes}
    (h : FieldsForm cs fields text) : fields.length = cs.length := by
  induction h with
  | nil => rfl
  | cons _ _ ih => rw [List.length_cons, List.length_cons, ih]

theorem FieldsForm.map_fst {cs : List Column} {fields : List (String × Value)} {text : Bytes}
    (h : FieldsForm cs fields text) : fields.map Prod.fst = cs.map Column.name := by
  induction h with
  | nil => rfl
  | cons _ _ ih => rw [List.map_cons, List.map_cons, ih]

/-! ### Reading a form -/

theorem takeField_append {n : Nat} {front : Bytes} (width : front.length = n) (rest : Bytes) :
    takeField n (front ++ rest) = .ok (front, rest) := by
  rw [takeField, take?_append width]

theorem takeField_eq_ok {n : Nat} {src front rest : Bytes}
    (h : takeField n src = .ok (front, rest)) : src = front ++ rest ∧ front.length = n := by
  rw [takeField, take?] at h
  split at h
  · rename_i p hp
    split at hp
    · simp only [Option.some.injEq] at hp
      simp only [← hp, Except.ok.injEq, Prod.mk.injEq] at h
      obtain ⟨rfl, rfl⟩ := h
      exact ⟨(List.take_append_drop ..).symm, by rw [List.length_take]; omega⟩
    · simp at hp
  · simp at h

/-- What goes on after a part was taken off the front had that part. -/
theorem of_takeField_bind {β : Type} {n : Nat} {src : Bytes} {r : β}
    {k : Bytes × Bytes → Except RowError β} (h : takeField n src >>= k = .ok r) :
    ∃ front rest, src = front ++ rest ∧ front.length = n ∧ k (front, rest) = .ok r := by
  cases htake : takeField n src with
  | error e => simp [htake, bind, Except.bind] at h
  | ok p =>
    obtain ⟨front, rest⟩ := p
    obtain ⟨hsrc, hlen⟩ := takeField_eq_ok htake
    exact ⟨front, rest, hsrc, hlen, by rwa [htake] at h⟩

theorem code_ne_nullTag (t : ColumnType) : t.code ≠ nullTag := by
  cases t <;> decide

/-- A field starts with its tag, and what follows a tag of the right type is its payload. -/
theorem decodeField_code (type : ColumnType) (bs : Bytes) :
    decodeField type (type.code :: bs) = decodePayload type bs := by
  rw [decodeField, if_neg (code_ne_nullTag type), if_pos (ColumnType.ofCode?_code type)]

theorem word_bigEndian (u : UInt64) : UInt64.ofNat (ofBigEndian (bigEndian 8 u.toNat)) = u := by
  have h : u.toNat < Nat.pow 256 8 := u.toNat_lt
  rw [ofBigEndian_bigEndian h, UInt64.ofNat_toNat]

theorem bigEndian_word {bs : Bytes} (h : bs.length = 8) :
    bigEndian 8 (UInt64.ofNat (ofBigEndian bs)).toNat = bs := by
  have hlt := ofBigEndian_lt bs
  have hread := bigEndian_ofBigEndian bs
  rw [h] at hlt hread
  rwa [UInt64.toNat_ofNat_of_lt' hlt]

theorem ofBigEndian_count {n : Nat} (h : n < UInt32.size) : ofBigEndian (bigEndian 4 n) = n :=
  ofBigEndian_bigEndian (w := 4) h

/-- A text stands behind its count. -/
theorem decodePayload_string {bs count rest body after : Bytes}
    (hcount : takeField 4 bs = .ok (count, rest))
    (hbody : takeField (ofBigEndian count) rest = .ok (body, after)) :
    decodePayload .string bs = match toText? body with
      | some s => .ok (.string s, after)
      | none => .error .notText := by
  simp only [decodePayload, bind, Except.bind, hcount, hbody]
  rfl

theorem decodePayload_of_form {type : ColumnType} {v : Value} {text : Bytes}
    (h : PayloadForm type v text) (rest : Bytes) :
    decodePayload type (text ++ rest) = .ok (v, rest) := by
  cases h with
  | bool b => simp [decodePayload, takeField, take?, bind, Except.bind, pure, Except.pure, bne]
  | int i =>
    rw [decodePayload, takeField_append (length_bigEndian ..)]
    simp only [bind, Except.bind, word_bigEndian]
    rfl
  | float d =>
    rw [decodePayload, takeField_append (length_bigEndian ..)]
    simp only [bind, Except.bind, word_bigEndian]
    rfl
  | @string s h =>
    have hcount := takeField_append (length_bigEndian 4 (ofText s).length) (ofText s ++ rest)
    have hbody := takeField_append (ofBigEndian_count h).symm rest
    rw [List.append_assoc, decodePayload_string hcount hbody, toText?_ofText]

theorem decodeField_of_form {type : ColumnType} {v : Value} {text : Bytes}
    (h : FieldForm type v text) (rest : Bytes) :
    decodeField type (text ++ rest) = .ok (v, rest) := by
  cases h with
  | null => rfl
  | payload h => rw [List.cons_append, decodeField_code, decodePayload_of_form h]

theorem decodeFields_of_form {cs : List Column} {fields : List (String × Value)} {text : Bytes}
    (h : FieldsForm cs fields text) (rest : Bytes) :
    decodeFields cs (text ++ rest) = .ok (fields, rest) := by
  induction h with
  | nil => rfl
  | cons hfield _ ih =>
    rw [List.append_assoc, decodeFields, decodeField_of_form hfield]
    simp only [ih]
    rfl

/-- A row is read where nothing follows it. -/
theorem decode_of_form {schema : EdgeSchema} {row : Row} {data : Bytes}
    (h : IsForm schema row data) (rest : Bytes) :
    decode schema (data ++ rest) = if rest = [] then .ok row else .error .trailingBytes := by
  obtain ⟨hle, hlt, text, hfields, rfl⟩ := h
  -- the head is the format and the two bytes of the count
  obtain ⟨high, low, hcount⟩ : ∃ high low, bigEndian 2 row.fields.length = [high, low] :=
    ⟨_, _, rfl⟩
  have hread : ofBigEndian [high, low] = row.fields.length := by
    rw [← hcount, ofBigEndian_bigEndian (w := 2) hlt]
  rw [hcount]
  simp only [List.cons_append, List.nil_append, decode, hread]
  rw [if_neg (by simp), if_neg (by omega), decodeFields_of_form hfields]
  cases rest <;> simp

/-! ### What is read has the form -/

theorem eq_code_of_ofCode? {tag : UInt8} {type : ColumnType}
    (h : ColumnType.ofCode? tag = some type) : tag = type.code := by
  simp only [ColumnType.ofCode?] at h
  repeat'
    split at h
    · subst tag
      rw [← Option.some.inj h]
      rfl
  simp at h

theorem form_of_decodePayload {type : ColumnType} {v : Value} {src rest : Bytes}
    (h : decodePayload type src = .ok (v, rest)) :
    ∃ text, src = text ++ rest ∧ PayloadForm type v text := by
  cases type with
  | bool =>
    obtain ⟨front, after, rfl, hlen, h⟩ := of_takeField_bind h
    obtain ⟨b, rfl⟩ := List.length_eq_one_iff.1 hlen
    simp only [pure, Except.pure, Except.ok.injEq, Prod.mk.injEq] at h
    obtain ⟨rfl, rfl⟩ := h
    have hbool : (([b] : Bytes) != [0]) = (b != 0) := by simp [bne]
    exact ⟨[b], rfl, hbool ▸ .bool b⟩
  | int =>
    obtain ⟨front, after, rfl, hlen, h⟩ := of_takeField_bind h
    simp only [pure, Except.pure, Except.ok.injEq, Prod.mk.injEq] at h
    obtain ⟨rfl, rfl⟩ := h
    have hform := PayloadForm.int (UInt64.ofNat (ofBigEndian front)).toInt64
    rw [UInt64.toUInt64_toInt64, bigEndian_word hlen] at hform
    exact ⟨front, rfl, hform⟩
  | float =>
    obtain ⟨front, after, rfl, hlen, h⟩ := of_takeField_bind h
    simp only [pure, Except.pure, Except.ok.injEq, Prod.mk.injEq] at h
    obtain ⟨rfl, rfl⟩ := h
    have hform := PayloadForm.float ⟨UInt64.ofNat (ofBigEndian front)⟩
    rw [bigEndian_word hlen] at hform
    exact ⟨front, rfl, hform⟩
  | string =>
    obtain ⟨count, behind, rfl, hcount, h⟩ := of_takeField_bind h
    obtain ⟨body, after, rfl, hbody, h⟩ := of_takeField_bind h
    simp only [pure, Except.pure] at h
    cases hs : toText? body with
    | none => simp [hs] at h
    | some s =>
      simp only [hs, Except.ok.injEq, Prod.mk.injEq] at h
      obtain ⟨rfl, rfl⟩ := h
      -- the count is the image of the length of the text
      obtain rfl := ofText_of_toText? hs
      have himage := bigEndian_ofBigEndian count
      have hlt := ofBigEndian_lt count
      rw [hcount, ← hbody] at himage hlt
      exact ⟨count ++ ofText s, (List.append_assoc ..).symm, himage ▸ .string hlt⟩

theorem form_of_decodeField {type : ColumnType} {v : Value} {src rest : Bytes}
    (h : decodeField type src = .ok (v, rest)) :
    ∃ text, src = text ++ rest ∧ FieldForm type v text := by
  cases src with
  | nil => simp [decodeField] at h
  | cons tag src =>
    rw [decodeField] at h
    split at h
    · rename_i htag
      simp only [Except.ok.injEq, Prod.mk.injEq] at h
      obtain ⟨rfl, rfl⟩ := h
      exact ⟨[nullTag], by rw [htag]; rfl, .null⟩
    · split at h
      · rename_i htag
        obtain ⟨text, rfl, hform⟩ := form_of_decodePayload h
        exact ⟨tag :: text, rfl, by rw [eq_code_of_ofCode? htag]; exact .payload hform⟩
      · simp at h

theorem form_of_decodeFields {cs : List Column} {fields : List (String × Value)}
    {src rest : Bytes} (h : decodeFields cs src = .ok (fields, rest)) :
    ∃ text, src = text ++ rest ∧ FieldsForm cs fields text := by
  induction cs generalizing src fields with
  | nil =>
    simp only [decodeFields, Except.ok.injEq, Prod.mk.injEq] at h
    obtain ⟨rfl, rfl⟩ := h
    exact ⟨[], rfl, .nil⟩
  | cons c cs ih =>
    rw [decodeFields] at h
    split at h
    · simp at h
    · rename_i v after hfield
      obtain ⟨text, rfl, hform⟩ := form_of_decodeField hfield
      cases hfields : decodeFields cs after with
      | error e => simp [hfields, Except.map] at h
      | ok p =>
        obtain ⟨tail, left⟩ := p
        simp only [hfields, Except.map, Except.ok.injEq, Prod.mk.injEq] at h
        obtain ⟨rfl, rfl⟩ := h
        obtain ⟨texts, rfl, hforms⟩ := ih hfields
        exact ⟨text ++ texts, by rw [List.append_assoc], .cons hform hforms⟩

theorem form_of_decode {schema : EdgeSchema} {row : Row} {data : Bytes}
    (h : decode schema data = .ok row) : IsForm schema row data := by
  rcases data with _ | ⟨form, _ | ⟨high, _ | ⟨low, body⟩⟩⟩
  iterate 3 simp [decode] at h
  · simp only [decode] at h
    split at h
    · simp at h
    · rename_i hformat
      split at h
      · simp at h
      · rename_i hcount
        split at h
        · simp at h
        · rename_i fields hfields
          simp only [Except.ok.injEq] at h
          subst h
          obtain ⟨text, rfl, hforms⟩ := form_of_decodeFields hfields
          have hlen : fields.length = ofBigEndian [high, low] := by
            rw [hforms.length_eq, List.length_take]
            omega
          -- the count is the image of the number of fields
          have hlt : ofBigEndian [high, low] < Nat.pow 256 2 := ofBigEndian_lt [high, low]
          have himage : bigEndian 2 (ofBigEndian [high, low]) = [high, low] :=
            bigEndian_ofBigEndian [high, low]
          rw [← hlen] at hlt himage
          refine ⟨by simp only; omega, hlt, text, by rwa [hlen], ?_⟩
          rw [himage, Decidable.not_not.1 hformat, List.append_nil]
          rfl
        · simp at h

/-- **The reader takes exactly the byte strings of the form.** -/
theorem decode_eq_ok_iff {schema : EdgeSchema} {row : Row} {data : Bytes} :
    decode schema data = .ok row ↔ IsForm schema row data := by
  refine ⟨form_of_decode, fun hform => ?_⟩
  have h := decode_of_form hform []
  rwa [List.append_nil, if_pos rfl] at h

/-! ### What is refused -/

/-- A failure that callers see as corruption. -/
def IsCorruption (e : RowError) : Prop := ∃ what, e.toStorageError = .corruption what

theorem isCorruption_of_takeField_bind {β : Type} {n : Nat} {src : Bytes} {e : RowError}
    {k : Bytes × Bytes → Except RowError β} (h : takeField n src >>= k = .error e)
    (hk : ∀ p, k p = .error e → IsCorruption e) : IsCorruption e := by
  cases htake : take? n src with
  | none =>
    rw [takeField, htake] at h
    exact Except.error.inj h ▸ ⟨_, rfl⟩
  | some p =>
    rw [takeField, htake] at h
    exact hk p h

theorem isCorruption_of_decodePayload {type : ColumnType} {bs : Bytes} {e : RowError}
    (h : decodePayload type bs = .error e) : IsCorruption e := by
  cases type with
  | bool | int | float =>
    exact isCorruption_of_takeField_bind h fun p h => by simp [pure, Except.pure] at h
  | string =>
    refine isCorruption_of_takeField_bind h fun p h =>
      isCorruption_of_takeField_bind h fun q h => ?_
    simp only [pure, Except.pure] at h
    cases hs : toText? q.1 with
    | some s => simp [hs] at h
    | none =>
      simp only [hs, Except.error.injEq] at h
      exact h ▸ ⟨_, rfl⟩

theorem isCorruption_of_decodeField {type : ColumnType} {bs : Bytes} {e : RowError}
    (h : decodeField type bs = .error e) : IsCorruption e := by
  cases bs with
  | nil => exact Except.error.inj h ▸ ⟨_, rfl⟩
  | cons tag bs =>
    rw [decodeField] at h
    split at h
    · simp at h
    · split at h
      · exact isCorruption_of_decodePayload h
      · exact Except.error.inj h ▸ ⟨_, rfl⟩

theorem isCorruption_of_decodeFields {cs : List Column} {bs : Bytes} {e : RowError}
    (h : decodeFields cs bs = .error e) : IsCorruption e := by
  induction cs generalizing bs with
  | nil => simp [decodeFields] at h
  | cons c cs ih =>
    rw [decodeFields] at h
    split at h
    · rename_i hfield
      exact isCorruption_of_decodeField (Except.error.inj h ▸ hfield)
    · rename_i v rest hfield
      cases hfields : decodeFields cs rest with
      | ok p => simp [hfields, Except.map] at h
      | error e' =>
        simp only [hfields, Except.map, Except.error.injEq] at h
        exact ih (h ▸ hfields)

/-- What is not read is corrupt. -/
theorem isCorruption_of_decode {schema : EdgeSchema} {data : Bytes} {e : RowError}
    (h : decode schema data = .error e) : IsCorruption e := by
  rcases data with _ | ⟨form, _ | ⟨high, _ | ⟨low, body⟩⟩⟩
  iterate 3 exact Except.error.inj h ▸ ⟨_, rfl⟩
  · simp only [decode] at h
    split at h
    · exact Except.error.inj h ▸ ⟨_, rfl⟩
    · split at h
      · exact Except.error.inj h ▸ ⟨_, rfl⟩
      · split at h
        · rename_i hfields
          exact isCorruption_of_decodeFields (Except.error.inj h ▸ hfields)
        · simp at h
        · exact Except.error.inj h ▸ ⟨_, rfl⟩

/-! ### Writing a form -/

/-- A value that a column of a type can hold. -/
def Fits (type : ColumnType) (v : Value) : Prop :=
  v = .null ∨ (v.type? = some type ∧ ∀ s, v = .string s → (ofText s).length < UInt32.size)

theorem form_of_encodeField {type : ColumnType} {v : Value} {text : Bytes}
    (h : encodeField type v = .ok text) : FieldForm type v text := by
  cases v with
  | null => exact Except.ok.inj h ▸ .null
  | bool b =>
    by_cases htype : type = .bool
    · subst htype
      have hform := FieldForm.payload (PayloadForm.bool (if b then 1 else 0))
      have hbool : ((if b then 1 else 0 : UInt8) != 0) = b := by cases b <;> rfl
      rw [hbool] at hform
      exact Except.ok.inj h ▸ hform
    · simp [encodeField, htype] at h
  | int i =>
    by_cases htype : type = .int
    · subst htype
      exact Except.ok.inj h ▸ .payload (.int i)
    · simp [encodeField, htype] at h
  | float d =>
    by_cases htype : type = .float
    · subst htype
      exact Except.ok.inj h ▸ .payload (.float d)
    · simp [encodeField, htype] at h
  | string s =>
    by_cases htype : type = .string
    · subst htype
      by_cases hlt : (ofText s).length < UInt32.size
      · simp only [encodeField, hlt, if_true, Except.ok.injEq] at h
        exact h ▸ .payload (.string hlt)
      · simp [encodeField, hlt] at h
    · simp [encodeField, htype] at h

theorem isOk_encodeField_iff {type : ColumnType} {v : Value} :
    (∃ text, encodeField type v = .ok text) ↔ Fits type v := by
  cases v with
  | string s =>
    by_cases htype : type = .string
    · by_cases hlt : (ofText s).length < UInt32.size <;>
        simp [encodeField, Fits, Value.type?, htype, hlt]
    · simp [encodeField, Fits, Value.type?, htype, Ne.symm htype]
  | null => simp [encodeField, Fits]
  | bool b => by_cases htype : type = .bool <;>
      simp [encodeField, Fits, Value.type?, htype, eq_comm (a := ColumnType.bool)]
  | int i => by_cases htype : type = .int <;>
      simp [encodeField, Fits, Value.type?, htype, eq_comm (a := ColumnType.int)]
  | float d => by_cases htype : type = .float <;>
      simp [encodeField, Fits, Value.type?, htype, eq_comm (a := ColumnType.float)]

/-- The fields that are written for columns: the first value under the name of each. -/
def supplied (props : List (String × Value)) (cs : List Column) : List (String × Value) :=
  cs.map fun c => (c.name, (valueOf? c.name props).getD .null)

theorem form_of_encodeFields {props : List (String × Value)} {cs : List Column} {text : Bytes}
    (h : encodeFields props cs = .ok text) : FieldsForm cs (supplied props cs) text := by
  induction cs generalizing text with
  | nil =>
    simp only [encodeFields, Except.ok.injEq] at h
    exact h ▸ .nil
  | cons c cs ih =>
    rw [encodeFields] at h
    split at h
    · simp at h
    · rename_i field hfield
      cases hfields : encodeFields props cs with
      | error e => simp [hfields, Except.map] at h
      | ok rest =>
        simp only [hfields, Except.map, Except.ok.injEq] at h
        exact h ▸ .cons (form_of_encodeField hfield) (ih hfields)

theorem isOk_encodeFields_iff {props : List (String × Value)} {cs : List Column} :
    (∃ text, encodeFields props cs = .ok text) ↔
      ∀ c ∈ cs, Fits c.type ((valueOf? c.name props).getD .null) := by
  induction cs with
  | nil => simp [encodeFields]
  | cons c cs ih =>
    rw [List.forall_mem_cons, ← ih, ← isOk_encodeField_iff, encodeFields]
    cases encodeField c.type ((valueOf? c.name props).getD .null) with
    | error e => simp
    | ok field =>
      cases encodeFields props cs with
      | error e => simp [Except.map]
      | ok rest => simp [Except.map]

/-- What is written has the form. -/
theorem form_of_encode {schema : EdgeSchema} {props : List (String × Value)} {data : Bytes}
    (h : encode schema props = .ok data) (later : EdgeSchema) :
    IsForm (schema ++ later) ⟨supplied props schema⟩ data := by
  have hlen : (supplied props schema).length = schema.length := List.length_map ..
  rw [encode] at h
  split at h
  · rename_i hlt
    cases hfields : encodeFields props schema with
    | error e => simp [hfields, Except.map] at h
    | ok text =>
      simp only [hfields, Except.map, Except.ok.injEq] at h
      refine ⟨by simp [hlen], by simpa only [hlen], text, ?_, by rw [← h, hlen]⟩
      rw [hlen, List.take_left]
      exact form_of_encodeFields hfields
  · simp at h

theorem isOk_encode_iff {schema : EdgeSchema} {props : List (String × Value)} :
    (∃ data, encode schema props = .ok data) ↔
      schema.length < UInt16.size ∧
        ∀ c ∈ schema, Fits c.type ((valueOf? c.name props).getD .null) := by
  rw [← isOk_encodeFields_iff, encode]
  by_cases hlt : schema.length < UInt16.size
  · cases encodeFields props schema with
    | error e => simp [hlt, Except.map]
    | ok text => simp [hlt, Except.map]
  · simp [hlt]

/-! ### Reading what was written -/

theorem valueOf?_eq_lookup (name : String) (fields : List (String × Value)) :
    valueOf? name fields = fields.lookup name := by
  induction fields with
  | nil => rfl
  | cons p fields ih =>
    obtain ⟨n, v⟩ := p
    by_cases hname : n = name
    · simp [valueOf?, hname]
    · have hbeq : (name == n) = false := by simpa using Ne.symm hname
      rw [valueOf?, if_neg hname, List.lookup_cons, hbeq, ih]

/-- A written row has a value under the name of each column, and under no other name. -/
theorem valueOf?_supplied (props : List (String × Value)) (cs : List Column) (name : String) :
    valueOf? name (supplied props cs) =
      if name ∈ cs.map (·.name) then some ((valueOf? name props).getD .null) else none := by
  induction cs with
  | nil => rfl
  | cons c cs ih =>
    rw [supplied, List.map_cons, valueOf?, ← supplied, ih]
    by_cases hname : c.name = name
    · simp [hname]
    · simp [hname, Ne.symm hname]

theorem fits_getD_iff {type : ColumnType} {o : Option Value} :
    Fits type (o.getD .null) ↔ ∀ v, o = some v → Fits type v := by
  cases o with
  | none => simp [Fits]
  | some v => simp

/-- **A row is read under every later schema as it was written**, and it can be written unless a
value does not fit its column or there are too many columns.  The first value under the name of
a column counts; a column that has none holds a null, and one of the later columns has no field. -/
theorem rows_survive_growth (schema later : EdgeSchema) (props : List (String × Value)) :
    ((∃ data, encode schema props = .ok data) ↔
      schema.length < UInt16.size ∧
        ∀ c ∈ schema, ∀ v, props.lookup c.name = some v → Fits c.type v) ∧
    ∀ data, encode schema props = .ok data → ∃ row, decode (schema ++ later) data = .ok row ∧
      row.fields.length = schema.length ∧
      (∀ c ∈ schema, row.get? c.name = some ((props.lookup c.name).getD .null)) ∧
      ∀ name, (∀ c ∈ schema, c.name ≠ name) → row.get? name = none := by
  refine ⟨?_, fun data h => ?_⟩
  · simp only [isOk_encode_iff, fits_getD_iff, valueOf?_eq_lookup]
  · refine ⟨_, decode_eq_ok_iff.2 (form_of_encode h later), List.length_map .., ?_, ?_⟩
    · intro c hc
      rw [Row.get?, valueOf?_supplied, if_pos (List.mem_map_of_mem hc), valueOf?_eq_lookup]
    · intro name hname
      have hmem : name ∉ schema.map (·.name) := by
        intro h
        obtain ⟨c, hc, heq⟩ := List.mem_map.1 h
        exact hname c hc heq
      rw [Row.get?, valueOf?_supplied, if_neg hmem]

/-- Columns for a truth value and a number. -/
def flagAndWeight : EdgeSchema := [⟨"flag", .bool, true⟩, ⟨"weight", .int, true⟩]

/-- Two properties of one name, of which the first one counts. -/
def flagTwice : List (String × Value) := [("flag", .bool true), ("flag", .null)]

theorem rows_survive_growth_sample :
    encode flagAndWeight flagTwice = .ok [1, 0, 2, 1, 1, 0] ∧
    ∃ row, decode (flagAndWeight ++ [⟨"label", .string, true⟩]) [1, 0, 2, 1, 1, 0] = .ok row ∧
      row.fields.length = flagAndWeight.length ∧
      (∀ c ∈ flagAndWeight, row.get? c.name = some ((flagTwice.lookup c.name).getD .null)) ∧
      ∀ name, (∀ c ∈ flagAndWeight, c.name ≠ name) → row.get? name = none :=
  ⟨rfl, (rows_survive_growth flagAndWeight _ flagTwice).2 _ rfl⟩

end EdgeDeletion.Row
