/-
The lifecycle of indexes in partitions.

While an index is rebuilt its entries must not be removed directly, and a locked
index must not be touched at all.  A marker stands for one index of a partition or
for all of them; the former wins.  No marker means the normal state, and setting
the normal state takes the marker away.

* `state_setIndex_self` — an index is in the state that was set last, unless it is
  the normal one.
-/
import EdgeDeletion.Edge

namespace EdgeDeletion

/-- The state of an index in a partition, as writers see it. -/
inductive IndexState where
  /-- Entries are maintained directly. -/
  | normal
  /-- A rebuild is running; removals go to the operation log. -/
  | rebuilding
  /-- The index must not be changed. -/
  | locked
deriving DecidableEq, Inhabited

/-- The markers of all indexes. -/
structure IndexMarkers where
  ofIndex : OrderedMap (Place × IndexId) IndexState
  ofPart : OrderedMap Place IndexState
deriving Inhabited

namespace IndexMarkers

def empty : IndexMarkers := ⟨.empty, .empty⟩

def state (m : IndexMarkers) (place : Place) (index : IndexId) : IndexState :=
  match m.ofIndex.get? (place, index) with
  | some s => s
  | none => (m.ofPart.get? place).getD .normal

def setIndex (m : IndexMarkers) (place : Place) (index : IndexId) (s : IndexState) :
    IndexMarkers :=
  if s = .normal then { m with ofIndex := m.ofIndex.erase (place, index) }
  else { m with ofIndex := m.ofIndex.insert (place, index) s }

/-- Sets the state of all indexes in a partition that have no state of their own. -/
def setPart (m : IndexMarkers) (place : Place) (s : IndexState) : IndexMarkers :=
  if s = .normal then { m with ofPart := m.ofPart.erase place }
  else { m with ofPart := m.ofPart.insert place s }

/-- Takes away all markers of a space. -/
def clearSpace (m : IndexMarkers) (space : SpaceId) : IndexMarkers :=
  ⟨m.ofIndex.filter fun k => k.1.space != space, m.ofPart.filter fun k => k.space != space⟩

theorem state_setIndex_self (m : IndexMarkers) (place : Place) (index : IndexId) {s : IndexState}
    (h : s ≠ .normal) : (m.setIndex place index s).state place index = s := by
  simp [setIndex, h, state, OrderedMap.get?_insert]

end IndexMarkers

end EdgeDeletion
