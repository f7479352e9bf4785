/-
The operation log that index rebuilds read.

A removal from an index that is being rebuilt is put off: an entry of the log says
which index key to remove later.  The key of the entry holds a sequence number, so
that the entries of a partition are read in the order of their numbers.  Numbers
are readings of a clock, or one more than the last number where the clock does not
move on.

* `Sequencer.last_lt_next` — below the greatest number, each number is above the
  one before, whatever the clock reads.
-/
import EdgeDeletion.Edge.Key

namespace EdgeDeletion

namespace Key

/-- The first byte of the keys of the operation log. -/
def operationTag : UInt8 := 0x04

/-- The last byte of the key of a deferred removal. -/
def deferralByte : UInt8 := 0x64

/-- The common start of the log of a partition. -/
def operationPrefix (part : PartId) : Bytes := header operationTag part

/-- The key of a deferred removal. -/
def deferral (part : PartId) (sequence : UInt64) : Bytes :=
  operationPrefix part ++ Ordered.ofUInt64 sequence ++ [deferralByte]

def isDeferral (key : Bytes) : Bool :=
  key.length == 14 && key.head? == some operationTag && key.getLast? == some deferralByte

end Key

/-- The source of sequence numbers. -/
structure Sequencer where
  /-- What the clock reads, draw by draw. -/
  clock : Nat → UInt64
  /-- How many numbers were drawn. -/
  drawn : Nat
  /-- The number drawn last, zero before the first. -/
  last : UInt64

namespace Sequencer

/-- A source from which nothing was drawn. -/
def start (clock : Nat → UInt64) : Sequencer := ⟨clock, 0, 0⟩

/-- The number that the next draw gives. -/
def next (s : Sequencer) : UInt64 :=
  UInt64.ofNat (max (s.clock s.drawn).toNat (min (s.last.toNat + 1) 0xffffffffffffffff))

def draw (s : Sequencer) : UInt64 × Sequencer :=
  (s.next, { s with drawn := s.drawn + 1, last := s.next })

def drawMany : Nat → Sequencer → List UInt64 × Sequencer
  | 0, s => ([], s)
  | n + 1, s =>
    let (number, s) := s.draw
    let (numbers, s) := drawMany n s
    (number :: numbers, s)

theorem last_lt_next (s : Sequencer) (h : s.last.toNat < 0xffffffffffffffff) :
    s.last.toNat < s.next.toNat := by
  have := (s.clock s.drawn).toNat_lt
  rw [next, UInt64.toNat_ofNat']
  omega

end Sequencer

end EdgeDeletion
