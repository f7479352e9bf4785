/-
The table of keys that operations under way have claimed.

A claim is made for a set of keys at once: either none of them was held and all are
held afterwards, or nothing changes and the least held one is named.

* `claim_eq_ok_iff` — a claim succeeds exactly if none of its keys is held.
-/
import EdgeDeletion.OrderedMap

namespace EdgeDeletion

universe u

/-- The keys that are held. -/
structure LockTable (κ : Type u) [KeyOrder κ] where
  held : OrderedSet κ

namespace LockTable

variable {κ : Type u} [KeyOrder κ]

def empty : LockTable κ := ⟨.empty⟩

instance : Inhabited (LockTable κ) := ⟨empty⟩

def isLocked (t : LockTable κ) (k : κ) : Bool := t.held.contains k

def size (t : LockTable κ) : Nat := t.held.size

def isEmpty (t : LockTable κ) : Bool := t.held.isEmpty

/-- The distinct keys of a request, ascending. -/
def distinct (ks : List κ) : List κ := (OrderedSet.ofList ks).keys

/-- Claims the keys of a request.  A success gives the distinct keys, ascending, and the table
that holds them; a failure names the least key that is held already. -/
def claim (t : LockTable κ) (ks : List κ) : Except κ (List κ × LockTable κ) :=
  let ks := distinct ks
  match ks.find? t.isLocked with
  | some k => .error k
  | none => .ok (ks, ⟨ks.foldl (fun s k => s.insert k ()) t.held⟩)

/-- Gives up keys that were claimed. -/
def release (t : LockTable κ) (ks : List κ) : LockTable κ :=
  ⟨ks.foldl (fun s k => s.erase k) t.held⟩

theorem claim_eq_ok_iff (t : LockTable κ) (ks : List κ) :
    (∃ r, t.claim ks = .ok r) ↔ ∀ k ∈ distinct ks, t.isLocked k = false := by
  have h : (distinct ks).find? t.isLocked = none ↔
      ∀ k ∈ distinct ks, t.isLocked k = false := by simp
  rw [← h, claim]
  cases (distinct ks).find? t.isLocked <;> simp

end LockTable

/-- The text of a failed claim, for the text of the key that is held. -/
def LockTable.conflictMessage (key : String) : String := "key " ++ key ++ " already locked"

end EdgeDeletion
