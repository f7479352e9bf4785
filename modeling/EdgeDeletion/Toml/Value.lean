/-
Values of TOML documents and the growth of their tables.

A table remembers how it came about, since that decides what may still be added to
it: a table with a header of its own cannot be opened again by a dotted key, a table
that a dotted key opened gets no header, and an inline table is closed.  The rules are
those of TOML 1.0 as the `toml` library documents them.

* `Table.insert` — adds a value under a dotted key;
* `Table.open`, `Table.append` — what the headers `[a.b]` and `[[a.b]]` do;
* `Table.at?` — applies a change at a path of keys.
-/

namespace EdgeDeletion.Toml

/-- How a table came about. -/
inductive TableForm where
  /-- By the header of a table below it. -/
  | implicit
  /-- By a header of its own; the document itself counts as such. -/
  | header
  /-- By a dotted key. -/
  | dotted
  /-- Between braces. -/
  | inline
deriving DecidableEq, Inhabited

/-- A value.  Of numbers with a fraction and of dates only the kind is kept. -/
inductive Value where
  | string (s : String)
  | integer (i : Int)
  | float
  | boolean (b : Bool)
  | date
  | array (elements : List Value)
  | table (form : TableForm) (entries : List (String × Value))
  /-- The tables under a header in double brackets. -/
  | tables (elements : List Value)
deriving Inhabited

/-- The entries of a table, in order. -/
abbrev Table := List (String × Value)

namespace Table

def get? (key : String) : Table → Option Value
  | [] => none
  | (k, v) :: t => if k = key then some v else get? key t

/-- Sets the value of a key, at its place if it has one. -/
def set (key : String) (v : Value) : Table → Table
  | [] => [(key, v)]
  | (k, w) :: t => if k = key then (k, v) :: t else (k, w) :: set key v t

/-- A change of the table at the end of a path; it may depend on how that table came about. -/
abbrev Edit := TableForm → Table → Option Table

/-- Applies a change at a path.  Keys that are missing on the way become tables, and of a list of
tables the last one is entered.  On the way of a dotted key no table with a header is entered. -/
def at? (dotted : Bool) (edit : Edit) : (path : List String) → Edit
  | [], form, t => edit form t
  | key :: path, _, t =>
    let missing : TableForm := if dotted then .dotted else .implicit
    match get? key t with
    | none => do
      let below ← at? dotted edit path missing []
      pure (set key (.table missing below) t)
    | some (.table form below) =>
      if form = .inline ∨ (dotted ∧ form = .header) then none
      else do
        let below ← at? dotted edit path form below
        pure (set key (.table form below) t)
    | some (.tables elements) =>
      match elements.getLast? with
      | some (.table form below) => do
        let below ← at? dotted edit path form below
        pure (set key (.tables (elements.dropLast ++ [.table form below])) t)
      | _ => none
    | some _ => none

/-- Adds a value under a dotted key: the path to a table and a new key there.  A longer path has
to end at a table that a dotted key opened. -/
def insert (path : List String) (key : String) (v : Value) : Edit :=
  at? true
    (fun form t =>
      if path ≠ [] ∧ form ≠ .dotted then none
      else if (get? key t).isSome then none
      else some (set key v t))
    path

def «open» (path : List String) (key : String) : Edit :=
  at? false
    (fun _ t =>
      match get? key t with
      | none => some (set key (.table .header []) t)
      | some (.table .implicit below) => some (set key (.table .header below) t)
      | some _ => none)
    path

/-- Adds a table to the list of a header in double brackets. -/
def append (path : List String) (key : String) : Edit :=
  at? false
    (fun _ t =>
      match get? key t with
      | none => some (set key (.tables [.table .header []]) t)
      | some (.tables elements) => some (set key (.tables (elements ++ [.table .header []])) t)
      | some _ => none)
    path

end Table

end EdgeDeletion.Toml
