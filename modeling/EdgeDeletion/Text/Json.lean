/-
Indented JSON.

A list or a record that holds something is written over several lines, one for each
element, and each level is indented by two spaces.  Of the characters of a text only
quotes, backslashes and controls are escaped.  The form follows the documented behaviour
of the pretty printer of `serde_json`.

* `Json.text` — the text of a value.
-/
import EdgeDeletion.Text

namespace EdgeDeletion.Text

/-- A value to be written. -/
inductive Json where
  | null
  | bool (b : Bool)
  | number (i : Int)
  | string (s : String)
  | list (elements : List Json)
  | record (members : List (String × Json))

namespace Json

/-- A value that may be missing. -/
def optional (f : α → Json) : Option α → Json
  | some a => f a
  | none => null

/-- A character within quotes. -/
def quotedChar (c : Char) : List Char :=
  if c = '"' then ['\\', '"']
  else if c = '\\' then ['\\', '\\']
  else if c = '\x08' then ['\\', 'b']
  else if c = '\t' then ['\\', 't']
  else if c = '\n' then ['\\', 'n']
  else if c = '\x0c' then ['\\', 'f']
  else if c = '\r' then ['\\', 'r']
  else if c.toNat < 32 then '\\' :: 'u' :: '0' :: '0' :: hexPair (UInt8.ofNat c.toNat)
  else [c]

def quoted (s : String) : String := String.ofList ('"' :: (s.toList.flatMap quotedChar ++ ['"']))

/-- A line break and the indentation of a level. -/
def lineBreak (level : Nat) : String := String.ofList ('\n' :: List.replicate (2 * level) ' ')

/-- Written elements between brackets, on lines of their own. -/
def bracketed (opening closing : String) (level : Nat) (elements : List String) : String :=
  if elements.isEmpty then opening ++ closing
  else
    opening ++ lineBreak (level + 1) ++
      String.intercalate ("," ++ lineBreak (level + 1)) elements ++ lineBreak level ++ closing

mutual

/-- The text of a value at a level. -/
def textAt (level : Nat) : Json → String
  | null => "null"
  | bool b => if b then "true" else "false"
  | number i => toString i
  | string s => quoted s
  | list elements => bracketed "[" "]" level (elementTexts (level + 1) elements)
  | record members => bracketed "\x7b" "\x7d" level (memberTexts (level + 1) members)

def elementTexts (level : Nat) : List Json → List String
  | [] => []
  | j :: js => textAt level j :: elementTexts level js

def memberTexts (level : Nat) : List (String × Json) → List String
  | [] => []
  | (name, j) :: ms => (quoted name ++ ": " ++ textAt level j) :: memberTexts level ms

end

def text (j : Json) : String := textAt 0 j

end Json

end EdgeDeletion.Text
