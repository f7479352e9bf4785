/-
Double-precision numbers, kept bit for bit.

A `Double` is its 64 bits, so that the payload of a NaN survives storage.
-/

namespace EdgeDeletion

/-- A double-precision number by its bits: sign, eleven bits of exponent, 52 bits of fraction. -/
structure Double where
  bits : UInt64
deriving DecidableEq, Inhabited

namespace Double

def zero : Double := ⟨0⟩

/-- The bits below the sign. -/
def magnitude (d : Double) : Nat := d.bits.toNat % 0x8000000000000000

def isNegative (d : Double) : Bool := decide (0x8000000000000000 ≤ d.bits.toNat)

/-- The bits of infinity below the sign. -/
def infinityMagnitude : Nat := 0x7ff0000000000000

def isNaN (d : Double) : Bool := decide (infinityMagnitude < d.magnitude)

def isInfinite (d : Double) : Bool := d.magnitude == infinityMagnitude

/-- Equality of numbers: the two zeros are equal, and a NaN equals nothing. -/
def equal (a b : Double) : Bool :=
  !a.isNaN && !b.isNaN && (a.bits == b.bits || (a.magnitude == 0 && b.magnitude == 0))

end Double

end EdgeDeletion
