/-
Numbers and dates of TOML documents.

A whole number fits 64 bits with a sign.  A number with a fraction is finite unless
it is written as an infinity; too great a negative number is let through.  A date is
a day of the calendar, a time of day, or both with an optional offset.

What is accepted follows the documented behaviour of the `toml` library.
-/
import EdgeDeletion.Toml.Text

namespace EdgeDeletion.Toml

/-- Reads digits after the first; single underscores may stand between them. -/
def moreDigits (isDigit : Char → Bool) : Scanner (List Char)
  | '_' :: c :: cs =>
    if isDigit c then do
      let (ds, cs) ← moreDigits isDigit cs
      pure (c :: ds, cs)
    else none
  | ['_'] => none
  | c :: cs =>
    if isDigit c then do
      let (ds, cs) ← moreDigits isDigit cs
      pure (c :: ds, cs)
    else some ([], c :: cs)
  | [] => some ([], [])

/-- Reads digits, at least one. -/
def digits? (isDigit : Char → Bool) : Scanner (List Char)
  | [] => none
  | c :: cs =>
    if isDigit c then do
      let (ds, cs) ← moreDigits isDigit cs
      pure (c :: ds, cs)
    else none

/-- The number that digits stand for. -/
def numberOf (base : Nat) (ds : List Char) : Nat :=
  ds.foldl (fun n c => base * n + (hexValue? c).getD 0) 0

/-- Reads a sign; the flag is set after a minus. -/
def sign : List Char → Bool × List Char
  | '-' :: cs => (true, cs)
  | '+' :: cs => (false, cs)
  | cs => (false, cs)

/-- Reads a whole number in base ten: a zero, or digits that start with none. -/
def decimal? (cs : List Char) : Option ((Bool × List Char) × List Char) := do
  let (negative, cs) := sign cs
  match cs with
  | '0' :: rest => pure ((negative, ['0']), rest)
  | _ =>
    let (ds, rest) ← digits? Char.isDigit cs
    pure ((negative, ds), rest)

/-- A whole number, if it fits 64 bits with a sign. -/
def bounded? (n : Int) : Option Value :=
  if -0x8000000000000000 ≤ n ∧ n ≤ 0x7fffffffffffffff then some (.integer n) else none

/-- Reads a whole number after the mark of a base. -/
def based? (base : Nat) (isDigit : Char → Bool) (cs : List Char) :
    Option (Value × List Char) := do
  let (ds, cs) ← digits? isDigit cs
  pure (← bounded? (numberOf base ds), cs)

def integer? : Scanner Value
  | '0' :: 'x' :: cs => based? 16 (fun c => (hexValue? c).isSome) cs
  | '0' :: 'o' :: cs => based? 8 (fun c => decide ('0' ≤ c ∧ c ≤ '7')) cs
  | '0' :: 'b' :: cs => based? 2 (fun c => decide ('0' ≤ c ∧ c ≤ '1')) cs
  | cs => do
    let ((negative, ds), cs) ← decimal? cs
    let n : Int := numberOf 10 ds
    pure (← bounded? (if negative then -n else n), cs)

/-- Whether digits times a power of ten are rounded to infinity: they reach the middle between the
greatest double and the power of two above it. -/
def overflows (ds : List Char) (exponent : Int) : Bool :=
  let n := numberOf 10 ds
  let top := (ds.length : Int) + exponent
  if n = 0 ∨ top < 300 then false
  else if 400 < top ∧ 0 < n / Nat.pow 10 (ds.length - 1) then true
  else
    let limit := 0x3fffffffffffff * Nat.pow 2 970
    decide (limit * Nat.pow 10 (-exponent).toNat ≤ n * Nat.pow 10 exponent.toNat)

def exponent? (cs : List Char) : Option (Int × List Char) := do
  let (negative, cs) := sign cs
  let (ds, cs) ← digits? Char.isDigit cs
  let n : Int := numberOf 10 ds
  pure (if negative then -n else n, cs)

def startsExponent : List Char → Bool
  | 'e' :: _ | 'E' :: _ => true
  | _ => false

/-- A number with a fraction or an exponent, unless it is too great. -/
def finite? (negative : Bool) (ds : List Char) (exponent : Int) : Option Value :=
  if overflows (ds.dropWhile (· == '0')) exponent && !negative then none else some .float

/-- Reads what follows a whole number: a fraction, an exponent, or both; `none` inside if neither
is there. -/
def fraction? (negative : Bool) (ds : List Char) : List Char → Option (Option (Value × List Char))
  | '.' :: cs => do
    let (fs, cs) ← digits? Char.isDigit cs
    let (e, cs) ← if startsExponent cs then exponent? (cs.drop 1) else some (0, cs)
    pure (some (← finite? negative (ds ++ fs) (e - fs.length), cs))
  | cs =>
    if startsExponent cs then do
      let (e, cs) ← exponent? (cs.drop 1)
      pure (some (← finite? negative ds e, cs))
    else some none

/-- Reads an infinity or a NaN after its sign. -/
def special? : Scanner Value
  | 'i' :: 'n' :: 'f' :: cs => some (.float, cs)
  | 'n' :: 'a' :: 'n' :: cs => some (.float, cs)
  | _ => none

/-! ### Dates -/

/-- Reads a fixed number of digits as a number. -/
def fixed? (count : Nat) (cs : List Char) : Option (Nat × List Char) :=
  let ds := cs.take count
  if ds.length = count ∧ ds.all Char.isDigit then some (numberOf 10 ds, cs.drop count) else none

/-- Reads a fixed number of digits as a number within bounds. -/
def within? (count low high : Nat) (cs : List Char) : Option (Nat × List Char) := do
  let (n, cs) ← fixed? count cs
  if low ≤ n ∧ n ≤ high then pure (n, cs) else none

def expect? (c : Char) : List Char → Option (List Char)
  | d :: cs => if d = c then some cs else none
  | [] => none

def daysOf (year month : Nat) : Nat :=
  if month = 2 then
    if year % 4 = 0 ∧ (year % 100 ≠ 0 ∨ year % 400 = 0) then 29 else 28
  else if month = 4 ∨ month = 6 ∨ month = 9 ∨ month = 11 then 30
  else 31

def day? (cs : List Char) : Option (List Char) := do
  let (year, cs) ← fixed? 4 cs
  let cs ← expect? '-' cs
  let (month, cs) ← within? 2 1 12 cs
  let cs ← expect? '-' cs
  let (day, cs) ← within? 2 1 31 cs
  if day ≤ daysOf year month then pure cs else none

/-- Reads a time of day; a second may be a leap second. -/
def time? (cs : List Char) : Option (List Char) := do
  let (_, cs) ← within? 2 0 23 cs
  let cs ← expect? ':' cs
  let (_, cs) ← within? 2 0 59 cs
  let cs ← expect? ':' cs
  let (_, cs) ← within? 2 0 60 cs
  match cs with
  | '.' :: c :: rest => if c.isDigit then pure (rest.dropWhile Char.isDigit) else pure cs
  | _ => pure cs

/-- Reads an offset from universal time, if there is one. -/
def offset? : List Char → Option (List Char)
  | 'Z' :: cs | 'z' :: cs => some cs
  | '+' :: cs | '-' :: cs => do
    let (_, cs) ← within? 2 0 23 cs
    let cs ← expect? ':' cs
    let (_, cs) ← within? 2 0 59 cs
    pure cs
  | cs => some cs

/-- Whether a time of day starts here: two digits for an hour and a colon. -/
def startsTime (cs : List Char) : Bool :=
  match within? 2 0 23 cs with
  | some (_, ':' :: _) => true
  | _ => false

/-- Whether a day of the calendar starts here: four digits and a dash. -/
def startsDay (cs : List Char) : Bool :=
  match fixed? 4 cs with
  | some (_, '-' :: _) => true
  | _ => false

/-- Reads a day and what may follow it, a time with an offset. -/
def dayAndTime? (cs : List Char) : Option (Value × List Char) := do
  let cs ← day? cs
  match cs with
  | c :: rest =>
    if (c = 'T' ∨ c = 't' ∨ c = ' ') ∧ startsTime rest then
      pure (.date, ← offset? (← time? rest))
    else pure (.date, cs)
  | [] => pure (.date, [])

def number? (cs : List Char) : Option (Value × List Char) :=
  if startsDay cs then dayAndTime? cs
  else if startsTime cs then do pure (.date, ← time? cs)
  else
    match special? (sign cs).2 with
    | some r => some r
    | none =>
      if cs.head? = some '0' ∧ (cs[1]? = some 'x' ∨ cs[1]? = some 'o' ∨ cs[1]? = some 'b') then
        integer? cs
      else do
        let ((negative, ds), rest) ← decimal? cs
        match ← fraction? negative ds rest with
        | some r => pure r
        | none => integer? cs

end EdgeDeletion.Toml
