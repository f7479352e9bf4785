/-
Reading of whole numbers: digits in base ten after an optional sign.
-/

namespace EdgeDeletion.Text

/-- The number that digits stand for; there is at least one. -/
def digits? (cs : List Char) : Option Nat :=
  if cs ≠ [] ∧ cs.all Char.isDigit then
    some (cs.foldl (fun n c => 10 * n + (c.toNat - '0'.toNat)) 0)
  else none

/-- Reads a number without a minus. -/
def natural? (s : String) : Option Nat :=
  match s.toList with
  | '+' :: cs => digits? cs
  | cs => digits? cs

def integer? (s : String) : Option Int :=
  match s.toList with
  | '-' :: cs => (digits? cs).map fun n => -(n : Int)
  | _ => (natural? s).map fun n => (n : Int)

end EdgeDeletion.Text
