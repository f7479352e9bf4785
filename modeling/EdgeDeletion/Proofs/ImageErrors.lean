/-
Which rows have an image, and why the others have none.

A column that suits a row has a value there which may be indexed under it (`Suits`).  Any other
column offends in exactly one way (`Offends`), and the first offending one decides.

* `suits_iff`, `offends_iff` — one column;
* `ofColumns_error_iff`, `ofColumns_ok_iff` — the columns one after the other;
* `ofColumns_append` — the places of the bitmap, column by column;
* `images_fail_exactly` — when there is an image, how long it is, and the error otherwise.
-/
import EdgeDeletion.Proofs.ImageForm

namespace EdgeDeletion

def Value.isNaN : Value → Bool
  | .float d => d.isNaN
  | _ => false

namespace Image

variable {row : Row} {c : IndexColumn} {columns : List IndexColumn}

/-- A value is one of the type of a column.  No NaN is. -/
def Fills (c : IndexColumn) (v : Value) : Prop := v.type? = some c.type ∧ v.isNaN = false

/-- A value may stand in a column: a null where nulls are admitted, otherwise a value of its
type. -/
def MayStand (c : IndexColumn) (v : Value) : Prop := v = .null ∧ c.nullable = true ∨ Fills c v

/-- A row has a value under a column that may stand there, and a text column has a width. -/
def Suits (row : Row) (c : IndexColumn) : Prop :=
  ∃ v, row.get? c.name = some v ∧ MayStand c v ∧ (c.type = .string → c.width ≠ none)

/-- A column makes a row fail. -/
inductive Offends (row : Row) (c : IndexColumn) : ImageError → Prop where
  | absent (h : row.get? c.name = none) : Offends row c (.missingField c.name)
  | forbidden (h : row.get? c.name = some .null) (hnullable : c.nullable = false) :
    Offends row c (.nullNotAllowed c.name)
  | mistyped {v : Value} (h : row.get? c.name = some v) (hnull : v ≠ .null)
    (hfills : ¬Fills c v) : Offends row c (.typeMismatch c.name)
  | unsized {v : Value} (h : row.get? c.name = some v) (hstands : MayStand c v)
    (htype : c.type = .string) (hwidth : c.width = none) : Offends row c (.missingWidth c.name)

/-! ### One column -/

/-- A value of another type has no bytes in a column, and neither has a NaN. -/
theorem ofValue_of_not_fills {v : Value} (hnull : v ≠ .null) (hfills : ¬Fills c v) :
    ofValue c v = .error (.typeMismatch c.name) := by
  unfold ofValue
  cases htype : c.type <;> cases v <;> simp_all [Fills, Value.type?, Value.isNaN]

/-- A text column without a width has no bytes for what may stand in it. -/
theorem ofValue_of_unsized {v : Value} (hstands : MayStand c v) (htype : c.type = .string)
    (hwidth : c.width = none) : ofValue c v = .error (.missingWidth c.name) := by
  unfold ofValue
  rw [htype, hwidth]
  rcases hstands with ⟨rfl, -⟩ | ⟨hv, -⟩
  · rfl
  · cases v <;> simp_all [Value.type?]

/-- Otherwise what may stand in a column has bytes there. -/
theorem exists_ofValue {v : Value} (hstands : MayStand c v)
    (hwidth : c.type = .string → c.width ≠ none) : ∃ bytes, ofValue c v = .ok bytes := by
  unfold ofValue
  rcases hstands with ⟨rfl, -⟩ | ⟨hv, hnan⟩
  · cases htype : c.type with
    | string =>
      obtain ⟨w, hw⟩ := Option.ne_none_iff_exists'.1 (hwidth htype)
      exact ⟨_, by rw [hw]⟩
    | _ => exact ⟨_, rfl⟩
  · cases v with
    | null => exact absurd hv nofun
    | bool b => exact ⟨[if b then 1 else 0], by simp [← Option.some.inj hv]⟩
    | int i => exact ⟨Ordered.ofInt64 i, by simp [← Option.some.inj hv]⟩
    | float d =>
      refine ⟨Ordered.ofDouble d, ?_⟩
      rw [← Option.some.inj hv]
      exact if_neg (by simpa [Value.isNaN] using hnan)
    | string s =>
      have htype : c.type = .string := (Option.some.inj hv).symm
      obtain ⟨w, hw⟩ := Option.ne_none_iff_exists'.1 (hwidth htype)
      exact ⟨Bytes.fit w.toNat (Bytes.ofText s), by simp [htype, hw]⟩

/-- The bytes that a column adds. -/
abbrev ofColumn (row : Row) (c : IndexColumn) : Except ImageError Bytes :=
  columnValue row c >>= ofValue c

/-- What may stand in a column is let through. -/
theorem columnValue_of_stands {v : Value} (hv : row.get? c.name = some v)
    (hstands : MayStand c v) : columnValue row c = .ok v := by
  rw [columnValue, hv]
  refine if_neg ?_
  rcases hstands with ⟨rfl, hnullable⟩ | ⟨htype, -⟩
  · simp [hnullable]
  · cases v <;> simp_all [Value.type?, Value.isNull]

/-- A column that suits a row adds bytes. -/
theorem Suits.exists_bytes (h : Suits row c) :
    ∃ v bytes, columnValue row c = .ok v ∧ ofValue c v = .ok bytes := by
  obtain ⟨v, hv, hstands, hwidth⟩ := h
  obtain ⟨bytes, hbytes⟩ := exists_ofValue hstands hwidth
  exact ⟨v, bytes, columnValue_of_stands hv hstands, hbytes⟩

/-- A column that offends fails in its way. -/
theorem Offends.ofColumn_eq {e : ImageError} (h : Offends row c e) : ofColumn row c = .error e := by
  cases h with
  | absent h =>
    rw [ofColumn, columnValue, h]
    rfl
  | forbidden h hnullable =>
    have hvalue : columnValue row c = .error (.nullNotAllowed c.name) := by
      rw [columnValue, h]
      exact if_pos (by simp [Value.isNull, hnullable])
    rw [ofColumn, hvalue]
    rfl
  | @mistyped v h hnull hfills =>
    have hvalue : columnValue row c = .ok v := by
      rw [columnValue, h]
      cases v with
      | null => exact absurd rfl hnull
      | _ => rfl
    rw [ofColumn, hvalue]
    exact ofValue_of_not_fills hnull hfills
  | unsized h hstands htype hwidth =>
    rw [ofColumn, columnValue_of_stands h hstands]
    exact ofValue_of_unsized hstands htype hwidth

/-- A column suits a row or offends. -/
theorem suits_or_offends (row : Row) (c : IndexColumn) :
    Suits row c ∨ ∃ e, Offends row c e := by
  cases hv : row.get? c.name with
  | none => exact .inr ⟨_, .absent hv⟩
  | some v =>
    by_cases hstands : MayStand c v
    · -- the width is asked for last, behind everything about the value
      by_cases hwidth : c.type = .string ∧ c.width = none
      · exact .inr ⟨_, .unsized hv hstands hwidth.1 hwidth.2⟩
      · exact .inl ⟨v, hv, hstands, fun htype hnone => hwidth ⟨htype, hnone⟩⟩
    · obtain ⟨hforbidden, hfills⟩ := not_or.1 hstands
      by_cases hnull : v = .null
      · subst hnull
        exact .inr ⟨_, .forbidden hv (by simpa using hforbidden)⟩
      · exact .inr ⟨_, .mistyped hv hnull hfills⟩

theorem suits_iff : Suits row c ↔ ∃ bytes, ofColumn row c = .ok bytes := by
  constructor
  · intro hsuits
    obtain ⟨v, bytes, hv, hbytes⟩ := hsuits.exists_bytes
    exact ⟨bytes, by rw [ofColumn, hv]; exact hbytes⟩
  · rintro ⟨bytes, hbytes⟩
    refine (suits_or_offends row c).resolve_right ?_
    rintro ⟨e, hoffends⟩
    exact absurd (hbytes.symm.trans hoffends.ofColumn_eq) nofun

theorem offends_iff {e : ImageError} : Offends row c e ↔ ofColumn row c = .error e := by
  refine ⟨Offends.ofColumn_eq, fun he => ?_⟩
  rcases suits_or_offends row c with hsuits | ⟨e', hoffends⟩
  · obtain ⟨bytes, hbytes⟩ := suits_iff.1 hsuits
    exact absurd (hbytes.symm.trans he) nofun
  · rwa [← Except.error.inj (hoffends.ofColumn_eq.symm.trans he)]

theorem Offends.not_suits {e : ImageError} (h : Offends row c e) : ¬Suits row c := by
  rw [suits_iff, offends_iff.1 h]
  exact nofun

/-- A column offends in one way only. -/
theorem Offends.unique {e e' : ImageError} (h : Offends row c e) (h' : Offends row c e') :
    e = e' := Except.error.inj ((offends_iff.1 h).symm.trans (offends_iff.1 h'))

/-! ### The columns one after the other -/

theorem ofColumns_of_offends {e : ImageError} (h : Offends row c e) (place : Nat)
    (cs : List IndexColumn) : ofColumns row place (c :: cs) = .error e := by
  have hcolumn := h.ofColumn_eq
  rw [ofColumns]
  cases hv : columnValue row c with
  | error e' =>
    rw [ofColumn, hv] at hcolumn
    exact congrArg Except.error (Except.error.inj hcolumn)
  | ok v =>
    rw [ofColumn, hv] at hcolumn
    have hbytes : ofValue c v = .error e := hcolumn
    simp only [bind, Except.bind, hbytes]

/-- Behind a column that suits, the next ones decide. -/
theorem ofColumns_of_suits (h : Suits row c) (place : Nat) :
    ∃ bytes bit, ∀ cs, ofColumns row place (c :: cs) =
      (ofColumns row (if c.nullable then place + 1 else place) cs).map
        fun p => (bytes ++ p.1, bit + p.2) := by
  obtain ⟨v, bytes, hv, hbytes⟩ := h.exists_bytes
  refine ⟨bytes, if v.isNull then Nat.pow 2 (15 - place) else 0, fun cs => ?_⟩
  rw [ofColumns, hv]
  simp only [bind, Except.bind, hbytes]
  cases ofColumns row (if c.nullable then place + 1 else place) cs <;> rfl

/-- The first column that does not suit makes the row fail. -/
theorem ofColumns_error_iff_find? [DecidablePred (Suits row)] (place : Nat) {e : ImageError} :
    ofColumns row place columns = .error e ↔
      ∃ c, columns.find? (fun c => ¬Suits row c) = some c ∧ Offends row c e := by
  -- the place decides about the bitmap only, never about an error
  induction columns generalizing place with
  | nil => simp [ofColumns]
  | cons c cs ih =>
    rcases suits_or_offends row c with hsuits | ⟨e', hoffends⟩
    · obtain ⟨bytes, bit, heq⟩ := ofColumns_of_suits hsuits place
      rw [List.find?_cons_of_neg (by simpa using hsuits),
        ← ih (if c.nullable then place + 1 else place), heq]
      cases ofColumns row (if c.nullable then place + 1 else place) cs <;> simp [Except.map]
    · rw [List.find?_cons_of_pos (by simpa using hoffends.not_suits),
        ofColumns_of_offends hoffends]
      constructor
      · intro heq
        obtain rfl := Except.error.inj heq
        exact ⟨c, rfl, hoffends⟩
      · rintro ⟨c', hfirst, h⟩
        obtain rfl := Option.some.inj hfirst
        rw [hoffends.unique h]

/-- It is the first one that offends. -/
theorem ofColumns_error_iff (place : Nat) {e : ImageError} :
    ofColumns row place columns = .error e ↔
      ∃ front c back, columns = front ++ c :: back ∧ (∀ c' ∈ front, Suits row c') ∧
        Offends row c e := by
  classical
  rw [ofColumns_error_iff_find?]
  simp only [List.find?_eq_some_iff_append, decide_eq_true_eq, Bool.not_eq_true',
    decide_eq_false_iff_not, not_not]
  constructor
  · rintro ⟨c, ⟨-, front, back, hsplit, hfront⟩, hoffends⟩
    exact ⟨front, c, back, hsplit, hfront, hoffends⟩
  · rintro ⟨front, c, back, hsplit, hfront, hoffends⟩
    exact ⟨c, ⟨hoffends.not_suits, front, back, hsplit, hfront⟩, hoffends⟩

theorem ofColumns_ok_iff (place : Nat) :
    (∃ p, ofColumns row place columns = .ok p) ↔ ∀ c ∈ columns, Suits row c := by
  classical
  constructor
  · rintro ⟨p, hp⟩
    cases hfirst : columns.find? fun c => ¬Suits row c with
    | none =>
      intro c hc
      simpa using List.find?_eq_none.1 hfirst c hc
    | some c =>
      have hfails : ¬Suits row c := by simpa using List.find?_some hfirst
      obtain ⟨e, hoffends⟩ := (suits_or_offends row c).resolve_left hfails
      have he := (ofColumns_error_iff_find? place).2 ⟨c, hfirst, hoffends⟩
      exact absurd (hp.symm.trans he) nofun
  · intro hall
    cases heq : ofColumns row place columns with
    | ok p => exact ⟨p, rfl⟩
    | error e =>
      obtain ⟨front, c, back, rfl, -, hoffends⟩ := (ofColumns_error_iff place).1 heq
      exact absurd (hall c (by simp)) hoffends.not_suits

/-- The place of a column in the bitmap is the number of columns before it that admit nulls. -/
theorem ofColumns_append (row : Row) (place : Nat) (front back : List IndexColumn) :
    ofColumns row place (front ++ back) = (do
      let (bytes, bitmap) ← ofColumns row place front
      let (bytes', bitmap') ← ofColumns row (place + front.countP (·.nullable)) back
      pure (bytes ++ bytes', bitmap + bitmap')) := by
  induction front generalizing place with
  | nil =>
    simp only [List.nil_append, ofColumns, List.countP_nil, Nat.add_zero]
    cases ofColumns row place back <;> simp [bind, Except.bind, pure, Except.pure]
  | cons c front ih =>
    rcases suits_or_offends row c with hsuits | ⟨e, hoffends⟩
    · obtain ⟨bytes, bit, heq⟩ := ofColumns_of_suits hsuits place
      have hplace : (if c.nullable then place + 1 else place) + front.countP (·.nullable) =
          place + (c :: front).countP (·.nullable) := by
        rw [List.countP_cons]
        split <;> omega
      rw [List.cons_append, heq, heq, ih, hplace]
      cases ofColumns row (if c.nullable then place + 1 else place) front with
      | error e => rfl
      | ok p =>
        cases ofColumns row (place + (c :: front).countP (·.nullable)) back <;>
          simp [bind, Except.bind, pure, Except.pure, Except.map, Nat.add_assoc]
    · rw [List.cons_append, ofColumns_of_offends hoffends, ofColumns_of_offends hoffends]
      rfl

/-! ### Images -/

theorem ofRow_of_many (h : 16 < columns.countP (·.nullable)) :
    ofRow row columns = .error .tooManyNullable := if_pos h

/-- If the bitmap covers the columns, these decide. -/
theorem ofRow_of_few (row : Row) (h : columns.countP (·.nullable) ≤ 16) :
    ∃ f : Bytes × Nat → Bytes, ofRow row columns = (ofColumns row 0 columns).map f := by
  refine ⟨fun p => if columns.any (·.nullable) then p.1 ++ Bytes.bigEndian 2 p.2 else p.1, ?_⟩
  have hcovers : ¬maxNullable < columns.countP (·.nullable) := Nat.not_lt.2 h
  rw [ofRow, if_neg hcovers]
  cases ofColumns row 0 columns <;> rfl

theorem ofRow_ok_iff :
    (∃ image, ofRow row columns = .ok image) ↔
      columns.countP (·.nullable) ≤ 16 ∧ ∀ c ∈ columns, Suits row c := by
  rcases Nat.lt_or_ge 16 (columns.countP (·.nullable)) with hmany | hfew
  · rw [ofRow_of_many hmany]
    simp [Nat.not_le.2 hmany]
  · obtain ⟨f, hf⟩ := ofRow_of_few row hfew
    rw [hf, ← ofColumns_ok_iff 0]
    cases ofColumns row 0 columns <;> simp [Except.map, hfew]

theorem ofRow_error_iff {e : ImageError} :
    ofRow row columns = .error e ↔
      16 < columns.countP (·.nullable) ∧ e = .tooManyNullable ∨
        columns.countP (·.nullable) ≤ 16 ∧ ∃ front c back, columns = front ++ c :: back ∧
          (∀ c' ∈ front, Suits row c') ∧ Offends row c e := by
  rcases Nat.lt_or_ge 16 (columns.countP (·.nullable)) with hmany | hfew
  · rw [ofRow_of_many hmany]
    simp [hmany, Nat.not_le.2 hmany, eq_comm]
  · obtain ⟨f, hf⟩ := ofRow_of_few row hfew
    rw [hf, ← ofColumns_error_iff 0]
    cases ofColumns row 0 columns <;> simp [Except.map, hfew, Nat.not_lt.2 hfew]

/-- **Images fail exactly when they should.**  A row has an image if and only if at most sixteen
columns admit nulls and every column suits the row.  The image has the sizes of the columns
together as its length, and two bytes more if a column admits nulls.  The error otherwise is that
there are too many such columns, or else that of the first column that offends.  A column that
admits nulls is worked on at the place that counts such columns before it, and that is never
beyond the last bit of the bitmap. -/
theorem images_fail_exactly (row : Row) (columns : List IndexColumn) :
    ((∃ image, ofRow row columns = .ok image) ↔
      columns.countP (·.nullable) ≤ 16 ∧ ∀ c ∈ columns, Suits row c) ∧
    (∀ image, ofRow row columns = .ok image →
      image.length = (columns.map IndexColumn.size).sum +
        if columns.any (·.nullable) then 2 else 0) ∧
    (∀ e, ofRow row columns = .error e ↔
      16 < columns.countP (·.nullable) ∧ e = .tooManyNullable ∨
        columns.countP (·.nullable) ≤ 16 ∧ ∃ front c back, columns = front ++ c :: back ∧
          (∀ c' ∈ front, Suits row c') ∧ Offends row c e) ∧
    ∀ front c back, columns = front ++ c :: back →
      (ofColumns row 0 columns = do
        let (bytes, bitmap) ← ofColumns row 0 front
        let (bytes', bitmap') ← ofColumns row (front.countP (·.nullable)) (c :: back)
        pure (bytes ++ bytes', bitmap + bitmap')) ∧
      (columns.countP (·.nullable) ≤ 16 → c.nullable = true →
        front.countP (·.nullable) ≤ 15) := by
  refine ⟨ofRow_ok_iff, fun image h => length_of_ofRow h, fun e => ofRow_error_iff, ?_⟩
  rintro front c back rfl
  constructor
  · rw [ofColumns_append, Nat.zero_add]
  · intro hfew hnullable
    rw [List.countP_append, List.countP_cons, if_pos hnullable] at hfew
    omega

/-- That a null is not admitted comes before the missing width. -/
example : ofRow ⟨[("label", .null)]⟩ [⟨⟨"label", .string, false⟩, none⟩] =
    .error (.nullNotAllowed "label") := by rfl

end Image

end EdgeDeletion
