/-
The shortest decimal of a double, written without an exponent.

A finite double stands for the reals that round to it: from halfway to the
number below to halfway to the number above, the ends included if its mantissa
is even.  The text has the fewest digits whose value lies there; of two such
decimals the nearer is taken, and the greater if both are equally near.

* `Binary.holds` — whether a decimal lies among the reals of a double;
* `Binary.shortest` — the decimal that is written;
* `Double.text` — the text of a double.
-/
import EdgeDeletion.Double

namespace EdgeDeletion

/-- A finite number without its sign, `mantissa * 2 ^ exponent`. -/
structure Binary where
  mantissa : Nat
  exponent : Int
  /-- The number below is half as far away as the number above. -/
  narrowBelow : Bool

/-- The decimal number `digits * 10 ^ exponent`. -/
structure Decimal where
  digits : Nat
  exponent : Int
deriving DecidableEq

namespace Binary

def ofDouble (d : Double) : Binary :=
  let field : Nat := d.magnitude / 0x10000000000000
  let fraction : Nat := d.magnitude % 0x10000000000000
  if field = 0 then ⟨fraction, -1074, false⟩
  else ⟨0x10000000000000 + fraction, (field : Int) - 1075, fraction == 0 && decide (1 < field)⟩

/-- Compares `a * 10 ^ i` with `n * 2 ^ j`. -/
def compareScaled (a : Nat) (i : Int) (n : Nat) (j : Int) : Ordering :=
  compare (a * Nat.pow 10 i.toNat * Nat.pow 2 (-j).toNat)
    (n * Nat.pow 2 j.toNat * Nat.pow 10 (-i).toNat)

/-- Whether a decimal lies among the reals that round to a number. -/
def holds (x : Binary) (d : Decimal) : Bool :=
  let low := if x.narrowBelow then 4 * x.mantissa - 1 else 4 * x.mantissa - 2
  let high := 4 * x.mantissa + 2
  let closed := x.mantissa % 2 == 0
  let atLow := compareScaled d.digits d.exponent low (x.exponent - 2)
  let atHigh := compareScaled d.digits d.exponent high (x.exponent - 2)
  (atLow == .gt || (closed && atLow == .eq)) && (atHigh == .lt || (closed && atHigh == .eq))

/-- The greatest decimal with this exponent that is not above the number. -/
def roundDown (x : Binary) (e : Int) : Nat :=
  (x.mantissa * Nat.pow 2 x.exponent.toNat * Nat.pow 10 (-e).toNat) /
    (Nat.pow 10 e.toNat * Nat.pow 2 (-x.exponent).toNat)

/-- The decimal with this exponent that lies among the reals of the number and is nearest to it,
the greater one if two are equally near. -/
def nearest? (x : Binary) (e : Int) : Option Decimal :=
  let n := x.roundDown e
  let below : Decimal := ⟨n, e⟩
  let above : Decimal := ⟨n + 1, e⟩
  match x.holds below, x.holds above with
  | false, false => none
  | true, false => some below
  | false, true => some above
  | true, true =>
    if compareScaled (2 * n + 1) e (2 * x.mantissa) x.exponent == .gt then some below
    else some above

/-- The least `k` with the number below `10 ^ k`.  No double is at or above `10 ^ 309`, and none
but zero is below `10 ^ (-324)`. -/
def scale (x : Binary) : Int :=
  let ks : List Int := (List.range 634).map fun i : Nat => (i : Int) - 324
  (ks.find? fun k => compareScaled 1 k x.mantissa x.exponent == .gt).getD 309

/-- The decimal that is exactly the number. -/
def exact (x : Binary) : Decimal :=
  ⟨x.mantissa * Nat.pow 2 x.exponent.toNat * Nat.pow 5 (-x.exponent).toNat,
    min x.exponent 0⟩

/-- The decimal with the fewest digits among the reals of the number, and nearest to it. -/
def shortest (x : Binary) : Decimal :=
  let k := x.scale
  ((List.range 17).findSome? fun i : Nat => x.nearest? (k - ((i : Int) + 1))).getD x.exact

end Binary

namespace Decimal

/-- Drops a number of zeros at the end of the digits, as long as there are any. -/
def dropZeros : (count : Nat) → Decimal → Decimal
  | 0, d => d
  | n + 1, d =>
    if d.digits ≠ 0 ∧ d.digits % 10 = 0 then dropZeros n ⟨d.digits / 10, d.exponent + 1⟩ else d

/-- The number with a point and without an exponent. -/
def text (d : Decimal) : String :=
  let digits := Nat.toDigits 10 d.digits
  let places := (-d.exponent).toNat
  let chars :=
    if places = 0 then digits ++ List.replicate d.exponent.toNat '0'
    else if places < digits.length then
      digits.take (digits.length - places) ++ '.' :: digits.drop (digits.length - places)
    else '0' :: '.' :: (List.replicate (places - digits.length) '0' ++ digits)
  String.ofList chars

end Decimal

/-- The text of a double: its shortest decimal, with a sign if its sign bit is set.  A NaN has no
sign. -/
def Double.text (d : Double) : String :=
  if d.isNaN then "NaN"
  else
    let sign := if d.isNegative then "-" else ""
    if d.isInfinite then sign ++ "inf"
    else if d.magnitude = 0 then sign ++ "0"
    else
      let shortest := (Binary.ofDouble d).shortest
      sign ++ (shortest.dropZeros 20).text

end EdgeDeletion
