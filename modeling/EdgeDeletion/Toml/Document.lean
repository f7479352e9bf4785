/-
Reading of TOML documents.

A document is a list of lines: blank lines and comments, headers, and keys with their
values.  A key belongs to the table of the last header, or to the document before the
first one.  Which documents are read, and how deep they may nest, follows the documented
behaviour of the `toml` library.

* `parse` — the table of a document, or nothing if the text is malformed.
-/
import EdgeDeletion.Toml.Number

namespace EdgeDeletion.Toml

mutual

/-- Reads a value at a depth of nesting; `fuel` bounds the number of steps, here and below. -/
def value? : (fuel depth : Nat) → Scanner Value
  | 0, _, _ => none
  | fuel + 1, depth, cs =>
    match cs with
    | '"' :: _ | '\'' :: _ => (text? cs.length cs).map fun p => (.string p.1, p.2)
    | '[' :: cs =>
      if depthLimit ≤ depth + 1 then none
      else do
        let (vs, cs) ← elements? fuel (depth + 1) cs
        pure (.array vs, cs)
    | '\x7b' :: cs =>
      if depthLimit ≤ depth + 1 then none
      else
        match skipWhite cs with
        | '\x7d' :: cs => some (.table .inline [], cs)
        | cs => do
          let (t, cs) ← entries? fuel (depth + 1) [] cs
          pure (.table .inline t, cs)
    | 't' :: 'r' :: 'u' :: 'e' :: cs => some (.boolean true, cs)
    | 'f' :: 'a' :: 'l' :: 's' :: 'e' :: cs => some (.boolean false, cs)
    | _ => number? cs

/-- Reads the elements of an array up to its bracket.  A comma may follow the last one. -/
def elements? : (fuel depth : Nat) → Scanner (List Value)
  | 0, _, _ => none
  | fuel + 1, depth, cs =>
    match skipLines cs.length cs with
    | ']' :: cs => some ([], cs)
    | cs => do
      let (v, cs) ← value? fuel depth cs
      match skipLines cs.length cs with
      | ',' :: cs =>
        let (vs, cs) ← elements? fuel depth cs
        pure (v :: vs, cs)
      | ']' :: cs => pure ([v], cs)
      | _ => none

/-- Reads the entries of an inline table, at least one, up to its brace. -/
def entries? : (fuel depth : Nat) → Table → Scanner Table
  | 0, _, _, _ => none
  | fuel + 1, depth, t, cs => do
    let ((path, key), cs) ← key? cs.length cs
    let cs ← expect? '=' cs
    let (v, cs) ← value? fuel depth (skipWhite cs)
    let t ← Table.insert path key v .inline t
    match skipWhite cs with
    | ',' :: cs => entries? fuel depth t cs
    | '\x7d' :: cs => pure (t, cs)
    | _ => none

end

/-- A document read so far, and the path of the last header. -/
structure Progress where
  root : Table
  path : List String

/-- Reads a header after its first bracket, up to the end of the line. -/
def header? (p : Progress) : Scanner Progress
  | '[' :: cs => do
    let ((path, key), cs) ← key? cs.length cs
    let cs ← expect? ']' cs
    let cs ← expect? ']' cs
    let root ← Table.append path key .header p.root
    pure (⟨root, path ++ [key]⟩, ← lineEnd? cs)
  | cs => do
    let ((path, key), cs) ← key? cs.length cs
    let cs ← expect? ']' cs
    let root ← Table.open path key .header p.root
    pure (⟨root, path ++ [key]⟩, ← lineEnd? cs)

/-- Reads a key and its value, up to the end of the line. -/
def keyValue? (p : Progress) (cs : List Char) : Option (Progress × List Char) := do
  let ((path, key), cs) ← key? cs.length cs
  let cs ← expect? '=' cs
  let cs := skipWhite cs
  let (v, cs) ← value? (2 * cs.length + 2) 0 cs
  let root ← Table.at? false (Table.insert path key v) p.path .header p.root
  pure ({ p with root := root }, ← lineEnd? cs)

/-- Reads lines up to the end; `fuel` bounds their number. -/
def lines? : (fuel : Nat) → Progress → List Char → Option Table
  | 0, _, _ => none
  | fuel + 1, p, cs =>
    match skipWhite cs with
    | [] => some p.root
    | '#' :: rest => do lines? fuel p (← lineEnd? ('#' :: rest))
    | '[' :: rest => do
      let (p, rest) ← header? p rest
      lines? fuel p rest
    | cs =>
      match newline? cs with
      | some rest => lines? fuel p rest
      | none => do
        let (p, rest) ← keyValue? p cs
        lines? fuel p rest

/-- Reads a document.  A byte order mark at its start is ignored. -/
def parse (text : String) : Option Table :=
  let cs :=
    match text.toList with
    | '\ufeff' :: cs => cs
    | cs => cs
  lines? (cs.length + 1) ⟨[], []⟩ cs

end EdgeDeletion.Toml
