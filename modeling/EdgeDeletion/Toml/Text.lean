/-
Blanks, comments, keys and texts of TOML documents.

A scanner takes the front of a list of characters and gives what it found and the
rest; none means that the document is malformed.  What is accepted follows the
documented behaviour of the `toml` library.
-/
import EdgeDeletion.Toml.Value

namespace EdgeDeletion.Toml

/-- Takes something off the front of a document. -/
abbrev Scanner (α : Type) := List Char → Option (α × List Char)

def isWhite (c : Char) : Bool := c == ' ' || c == '\t'

/-- Whether a character may stand in a comment: a tab or no control. -/
def isPlain (c : Char) : Bool := c == '\t' || (32 ≤ c.toNat && c.toNat != 127)

def skipWhite (cs : List Char) : List Char := cs.dropWhile isWhite

/-- The rest after a line break, if there is one. -/
def newline? : List Char → Option (List Char)
  | '\n' :: cs => some cs
  | '\r' :: '\n' :: cs => some cs
  | _ => none

/-- Drops a comment up to the end of its line. -/
def skipComment : List Char → List Char
  | '#' :: cs => cs.dropWhile isPlain
  | cs => cs

/-- The rest after the end of a line: blanks, a comment, and a line break or the end. -/
def lineEnd? (cs : List Char) : Option (List Char) :=
  match skipComment (skipWhite cs) with
  | [] => some []
  | rest => newline? rest

/-- Drops blanks, line breaks and comments; `fuel` bounds the number of characters. -/
def skipLines : (fuel : Nat) → List Char → List Char
  | 0, cs => cs
  | fuel + 1, cs =>
    let cs := skipComment (skipWhite cs)
    match newline? cs with
    | some rest => skipLines fuel rest
    | none => cs

/-! ### Texts -/

def hexValue? (c : Char) : Option Nat :=
  if '0' ≤ c ∧ c ≤ '9' then some (c.toNat - '0'.toNat)
  else if 'a' ≤ c ∧ c ≤ 'f' then some (c.toNat - 'a'.toNat + 10)
  else if 'A' ≤ c ∧ c ≤ 'F' then some (c.toNat - 'A'.toNat + 10)
  else none

/-- Reads a fixed number of hexadecimal digits after the number read so far. -/
def hexNumber? : (count : Nat) → Nat → Scanner Nat
  | 0, n, cs => some (n, cs)
  | _ + 1, _, [] => none
  | count + 1, n, c :: cs => do hexNumber? count (16 * n + (← hexValue? c)) cs

/-- The character with a code, unless the code is a surrogate or too great. -/
def charOf? (n : Nat) : Option Char :=
  if n < 0xD800 ∨ (0xDFFF < n ∧ n < 0x110000) then some (Char.ofNat n) else none

/-- Reads an escape after its backslash. -/
def escape? : Scanner Char
  | 'b' :: cs => some ('\x08', cs)
  | 't' :: cs => some ('\t', cs)
  | 'n' :: cs => some ('\n', cs)
  | 'f' :: cs => some ('\x0c', cs)
  | 'r' :: cs => some ('\r', cs)
  | '"' :: cs => some ('"', cs)
  | '\\' :: cs => some ('\\', cs)
  | 'u' :: cs => do
    let (n, cs) ← hexNumber? 4 0 cs
    pure (← charOf? n, cs)
  | 'U' :: cs => do
    let (n, cs) ← hexNumber? 8 0 cs
    pure (← charOf? n, cs)
  | _ => none

/-- Drops blanks and line breaks; `fuel` bounds the number of characters. -/
def skipBreaks : (fuel : Nat) → List Char → List Char
  | 0, cs => cs
  | fuel + 1, cs =>
    let cs := skipWhite cs
    match newline? cs with
    | some rest => skipBreaks fuel rest
    | none => cs

/-- The rest after a line break that an escape hides, with all blanks and breaks that follow. -/
def hiddenBreak? (fuel : Nat) (cs : List Char) : Option (List Char) :=
  (newline? (skipWhite cs)).map (skipBreaks fuel)

/-- Splits off up to two quotes before the three that end a text; there are at least three. -/
def closing? (quote : Char) : Scanner (List Char)
  | a :: b :: c :: cs =>
    if a = quote ∧ b = quote ∧ c = quote then
      match cs with
      | d :: e :: rest =>
        if d = quote ∧ e = quote then some ([quote, quote], rest)
        else if d = quote then some ([quote], e :: rest)
        else some ([], cs)
      | [d] => if d = quote then some ([quote], []) else some ([], cs)
      | [] => some ([], [])
    else none
  | _ => none

/-- Reads a text up to its quote; `fuel` bounds the number of characters. -/
def basicBody : (fuel : Nat) → Scanner (List Char)
  | 0, _ => none
  | _ + 1, [] => none
  | fuel + 1, c :: cs =>
    if c = '"' then some ([], cs)
    else if c = '\\' then do
      let (e, cs) ← escape? cs
      let (s, cs) ← basicBody fuel cs
      pure (e :: s, cs)
    else if isPlain c then do
      let (s, cs) ← basicBody fuel cs
      pure (c :: s, cs)
    else none

/-- Reads a text up to its three quotes.  Line breaks stay, as single line feeds. -/
def longBasicBody : (fuel : Nat) → Scanner (List Char)
  | 0, _ => none
  | _ + 1, [] => none
  | fuel + 1, c :: cs =>
    match closing? '"' (c :: cs) with
    | some r => some r
    | none =>
      if c = '\\' then
        match hiddenBreak? fuel cs with
        | some cs => longBasicBody fuel cs
        | none => do
          let (e, cs) ← escape? cs
          let (s, cs) ← longBasicBody fuel cs
          pure (e :: s, cs)
      else
        match newline? (c :: cs) with
        | some cs => do
          let (s, cs) ← longBasicBody fuel cs
          pure ('\n' :: s, cs)
        | none =>
          if isPlain c then do
            let (s, cs) ← longBasicBody fuel cs
            pure (c :: s, cs)
          else none

/-- Reads a text without escapes up to its quote. -/
def literalBody : Scanner (List Char)
  | [] => none
  | c :: cs =>
    if c = '\'' then some ([], cs)
    else if isPlain c then do
      let (s, cs) ← literalBody cs
      pure (c :: s, cs)
    else none

/-- Reads a text without escapes up to its three quotes. -/
def longLiteralBody : (fuel : Nat) → Scanner (List Char)
  | 0, _ => none
  | _ + 1, [] => none
  | fuel + 1, c :: cs =>
    match closing? '\'' (c :: cs) with
    | some r => some r
    | none =>
      match newline? (c :: cs) with
      | some cs => do
        let (s, cs) ← longLiteralBody fuel cs
        pure ('\n' :: s, cs)
      | none =>
        if isPlain c then do
          let (s, cs) ← longLiteralBody fuel cs
          pure (c :: s, cs)
        else none

/-- Drops a line break at the start of a long text. -/
def dropBreak (cs : List Char) : List Char := (newline? cs).getD cs

/-- Reads a quoted text on one line. -/
def shortText? (fuel : Nat) : Scanner String
  | '"' :: cs => (basicBody fuel cs).map fun p => (String.ofList p.1, p.2)
  | '\'' :: cs => (literalBody cs).map fun p => (String.ofList p.1, p.2)
  | _ => none

def text? (fuel : Nat) : Scanner String
  | '"' :: '"' :: '"' :: cs =>
    (longBasicBody fuel (dropBreak cs)).map fun p => (String.ofList p.1, p.2)
  | '\'' :: '\'' :: '\'' :: cs =>
    (longLiteralBody fuel (dropBreak cs)).map fun p => (String.ofList p.1, p.2)
  | cs => shortText? fuel cs

/-! ### Keys -/

/-- Whether a character may stand in a key without quotes. -/
def isBare (c : Char) : Bool := c.isAlphanum || c == '-' || c == '_'

def simpleKey? (fuel : Nat) (cs : List Char) : Option (String × List Char) :=
  match cs with
  | '"' :: _ | '\'' :: _ => shortText? fuel cs
  | _ =>
    let name := cs.takeWhile isBare
    if name = [] then none else some (String.ofList name, cs.dropWhile isBare)

/-- Reads keys with dots between them; blanks may stand around each. -/
def dottedKey? : (fuel : Nat) → Scanner (List String)
  | 0, _ => none
  | fuel + 1, cs => do
    let (key, cs) ← simpleKey? fuel (skipWhite cs)
    match skipWhite cs with
    | '.' :: cs =>
      let (keys, cs) ← dottedKey? fuel cs
      pure (key :: keys, cs)
    | cs => pure ([key], cs)

/-- The depth at which nesting is refused, of keys and of values alike. -/
def depthLimit : Nat := 80

/-- Reads a dotted key and splits off its last part. -/
def key? (fuel : Nat) (cs : List Char) : Option ((List String × String) × List Char) := do
  let (keys, cs) ← dottedKey? fuel cs
  if depthLimit ≤ keys.length then none
  else
    match keys.getLast? with
    | some last => pure ((keys.dropLast, last), cs)
    | none => none

end EdgeDeletion.Toml
