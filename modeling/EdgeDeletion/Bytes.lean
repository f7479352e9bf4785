/-
Byte strings.

Keys, values and payloads are lists of bytes.  This module cuts and pads them to
a fixed width and takes a counted number of bytes off the front.

* `length_fit` — the fitted string has exactly the asked width;
* `fit_eq_self` — a string that has the width already is kept;
* `take?_append` — a counted part comes off the front unchanged;
* `toText?_ofText`, `ofText_of_toText?` — texts and their bytes stand for each other.
-/
import EdgeDeletion.OrderedMap

namespace EdgeDeletion

abbrev Bytes := List UInt8

namespace Bytes

/-- Cuts a byte string to `width` bytes, or pads it with zeros up to them. -/
def fit (width : Nat) (bs : Bytes) : Bytes :=
  bs.take width ++ List.replicate (width - bs.length) 0

theorem length_fit (width : Nat) (bs : Bytes) : (fit width bs).length = width := by
  simp only [fit, List.length_append, List.length_take, List.length_replicate]
  omega

theorem fit_eq_self {width : Nat} {bs : Bytes} (h : bs.length = width) : fit width bs = bs := by
  simp [fit, ← h]

/-- Takes `n` bytes off the front, if there are as many. -/
def take? (n : Nat) (bs : Bytes) : Option (Bytes × Bytes) :=
  if n ≤ bs.length then some (bs.take n, bs.drop n) else none

theorem take?_append {front : Bytes} {n : Nat} (width : front.length = n) (rest : Bytes) :
    take? n (front ++ rest) = some (front, rest) := by
  subst width
  simp [take?]

/-- Whether a byte string starts with another. -/
def startsWith (bs start : Bytes) : Bool := start.isPrefixOf bs

def ofText (s : String) : Bytes := s.toUTF8.data.toList

/-- The text that a byte string holds in UTF-8.  Overlong forms, surrogates and code points
beyond the last one are refused. -/
def toText? (bs : Bytes) : Option String := String.fromUTF8? ⟨bs.toArray⟩

theorem toText?_ofText (s : String) : toText? (ofText s) = some s := by
  have h : (⟨(ofText s).toArray⟩ : ByteArray) = s.toUTF8 := by simp [ofText]
  rw [toText?, h, String.fromUTF8?]
  exact dif_pos s.isValidUTF8

theorem ofText_of_toText? {bs : Bytes} {s : String} (h : toText? bs = some s) : ofText s = bs := by
  rw [toText?, String.fromUTF8?] at h
  split at h
  · rw [← Option.some.inj h]
    simp [ofText, String.fromUTF8]
  · simp at h

end Bytes

end EdgeDeletion
