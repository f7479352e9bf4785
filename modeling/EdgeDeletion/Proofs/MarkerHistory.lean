/-
The state of an index as its history gives it.

Settings of an index, settings of a partition and clearings of a space may follow each
other in any order.  What an index was set to last counts, unless that is the normal
state: with it the index follows its partition again.

* `ofIndex_run`, `ofPart_run` — the markers kept are the latest settings, those to the
  normal state left out;
* `state_follows_settings` — the state after any history;
* `normal_setting_uncovers_part` — an index set to the normal state need not be in it.
-/
import EdgeDeletion.Index.State
import Mathlib.Data.List.Induction

namespace EdgeDeletion

namespace IndexMarkers

/-- A change to the markers. -/
inductive Edit where
  | setIndex (place : Place) (index : IndexId) (s : IndexState)
  | setPart (place : Place) (s : IndexState)
  | clearSpace (space : SpaceId)
deriving DecidableEq

def edit (m : IndexMarkers) : Edit → IndexMarkers
  | .setIndex place index s => m.setIndex place index s
  | .setPart place s => m.setPart place s
  | .clearSpace space => m.clearSpace space

/-- The markers after a history that started without any. -/
def run (edits : List Edit) : IndexMarkers := edits.foldl edit empty

/-! ### Reading a history -/

/-- What happened since the space was cleared last, the latest first. -/
def sinceClear (space : SpaceId) (edits : List Edit) : List Edit :=
  edits.reverse.takeWhile (· ≠ .clearSpace space)

/-- What the edit sets the index itself to. -/
def Edit.ofIndex? (place : Place) (index : IndexId) : Edit → Option IndexState
  | .setIndex place' index' s => if place' = place ∧ index' = index then some s else none
  | _ => none

/-- What the edit sets the partition to. -/
def Edit.ofPart? (place : Place) : Edit → Option IndexState
  | .setPart place' s => if place' = place then some s else none
  | _ => none

/-- The latest setting of the index since its space was cleared. -/
def latestOfIndex (place : Place) (index : IndexId) (edits : List Edit) : Option IndexState :=
  (sinceClear place.space edits).findSome? (Edit.ofIndex? place index)

/-- The latest setting of the partition since its space was cleared. -/
def latestOfPart (place : Place) (edits : List Edit) : Option IndexState :=
  (sinceClear place.space edits).findSome? (Edit.ofPart? place)

theorem sinceClear_concat (space : SpaceId) (edits : List Edit) (e : Edit) :
    sinceClear space (edits ++ [e]) =
      if e = .clearSpace space then [] else e :: sinceClear space edits := by
  rw [sinceClear, List.reverse_append, List.reverse_singleton, List.singleton_append,
    List.takeWhile_cons]
  by_cases h : e = .clearSpace space
  · simp [h]
  · simp [h, sinceClear]

variable (place : Place) (index : IndexId) (edits : List Edit)

/-- The latest edit is looked at first. -/
theorem findSome?_sinceClear_concat (f : Edit → Option IndexState) (space : SpaceId) (e : Edit) :
    (sinceClear space (edits ++ [e])).findSome? f =
      if e = .clearSpace space then none
      else (f e).or ((sinceClear space edits).findSome? f) := by
  rw [sinceClear_concat]
  by_cases h : e = .clearSpace space
  · rw [if_pos h, if_pos h, List.findSome?_nil]
  · rw [if_neg h, if_neg h, List.findSome?_cons]
    cases f e <;> rfl

theorem latestOfIndex_concat (e : Edit) :
    latestOfIndex place index (edits ++ [e]) =
      if e = .clearSpace place.space then none
      else (e.ofIndex? place index).or (latestOfIndex place index edits) :=
  findSome?_sinceClear_concat ..

theorem latestOfPart_concat (e : Edit) :
    latestOfPart place (edits ++ [e]) =
      if e = .clearSpace place.space then none
      else (e.ofPart? place).or (latestOfPart place edits) :=
  findSome?_sinceClear_concat ..

/-! ### The markers kept -/

theorem run_concat (e : Edit) : run (edits ++ [e]) = (run edits).edit e := by
  rw [run, List.foldl_append]
  rfl

theorem get?_ofIndex_setIndex (m : IndexMarkers) (place' : Place) (index' : IndexId)
    (s : IndexState) :
    (m.setIndex place' index' s).ofIndex.get? (place, index) =
      if place' = place ∧ index' = index then (some s).filter (· ≠ .normal)
      else m.ofIndex.get? (place, index) := by
  rw [setIndex]
  by_cases h : place' = place ∧ index' = index
  · rw [if_pos h]
    by_cases hs : s = .normal
    · simp [hs, h.1, h.2, OrderedMap.get?_erase, Option.filter_some]
    · simp [hs, h.1, h.2, OrderedMap.get?_insert, Option.filter_some]
  · have hne : (place, index) ≠ (place', index') := fun heq => h (by cases heq; exact ⟨rfl, rfl⟩)
    by_cases hs : s = .normal
    · simp [hs, h, hne, OrderedMap.get?_erase]
    · simp [hs, h, hne, OrderedMap.get?_insert]

theorem get?_ofPart_setPart (m : IndexMarkers) (place' : Place) (s : IndexState) :
    (m.setPart place' s).ofPart.get? place =
      if place' = place then (some s).filter (· ≠ .normal) else m.ofPart.get? place := by
  rw [setPart]
  by_cases hs : s = .normal <;> by_cases h : place' = place
  · simp [hs, h, OrderedMap.get?_erase, Option.filter_some]
  · simp [hs, h, Ne.symm h, OrderedMap.get?_erase]
  · simp [hs, h, OrderedMap.get?_insert, Option.filter_some]
  · simp [hs, h, Ne.symm h, OrderedMap.get?_insert]

/-- A setting, or else what was there, without the normal state. -/
theorem filter_or_ite (c : Prop) [Decidable c] (s : IndexState) (before : Option IndexState) :
    ((if c then some s else none).or before).filter (· ≠ .normal) =
      if c then (some s).filter (· ≠ .normal) else before.filter (· ≠ .normal) := by
  by_cases h : c
  · rw [if_pos h, if_pos h, Option.some_or]
  · rw [if_neg h, if_neg h, Option.none_or]

/-- The marker of an index is its latest setting, if not to the normal state. -/
theorem ofIndex_run :
    (run edits).ofIndex.get? (place, index) =
      (latestOfIndex place index edits).filter (· ≠ .normal) := by
  induction edits using List.reverseRecOn with
  | nil => rfl
  | append_singleton edits e ih =>
    rw [run_concat, latestOfIndex_concat]
    cases e with
    | setIndex place' index' s =>
      simp only [reduceCtorEq, if_false]
      exact (get?_ofIndex_setIndex place index _ place' index' s).trans
        (by rw [ih]; exact (filter_or_ite _ s _).symm)
    | setPart place' s =>
      simp only [reduceCtorEq, if_false]
      refine Eq.trans ?_ ih
      rw [edit, setPart]
      split <;> rfl
    | clearSpace space =>
      rw [edit, clearSpace, OrderedMap.get?_filter]
      by_cases h : place.space = space
      · simp [h]
      · simp [h, Ne.symm h, Edit.ofIndex?, ih]

/-- The marker of a partition is its latest setting, if not to the normal state. -/
theorem ofPart_run :
    (run edits).ofPart.get? place = (latestOfPart place edits).filter (· ≠ .normal) := by
  induction edits using List.reverseRecOn with
  | nil => rfl
  | append_singleton edits e ih =>
    rw [run_concat, latestOfPart_concat]
    cases e with
    | setIndex place' index' s =>
      simp only [reduceCtorEq, if_false]
      refine Eq.trans ?_ ih
      rw [edit, setIndex]
      split <;> rfl
    | setPart place' s =>
      simp only [reduceCtorEq, if_false]
      exact (get?_ofPart_setPart place _ place' s).trans
        (by rw [ih]; exact (filter_or_ite _ s _).symm)
    | clearSpace space =>
      rw [edit, clearSpace, OrderedMap.get?_filter]
      by_cases h : place.space = space
      · simp [h]
      · simp [h, Ne.symm h, Edit.ofPart?, ih]

/-! ### The state of an index -/

/-- Leaving out the normal state does not matter where it is the default. -/
theorem getD_filter_normal (setting : Option IndexState) :
    (setting.filter (· ≠ .normal)).getD .normal = setting.getD .normal := by
  rcases setting with _ | _ | _ | _ <;> rfl

/-- **What an index was set to last counts, unless that is the normal state.** After any
history an index is in the state of its latest setting since its space was cleared, if
there was one and it was not to the normal state. Otherwise it is in the state of the
latest setting of its partition since then, and without one in the normal state. -/
theorem state_follows_settings :
    (run edits).state place index =
      ((latestOfIndex place index edits).filter (· ≠ .normal)).getD
        ((latestOfPart place edits).getD .normal) := by
  rw [state, ofIndex_run, ofPart_run, getD_filter_normal]
  cases (latestOfIndex place index edits).filter (· ≠ .normal) <;> rfl

/-- An index set to the normal state is not in it where its partition is set to another
one: the latest setting of an index does not decide whichever state it was to. -/
theorem normal_setting_uncovers_part :
    ¬ ∀ (edits : List Edit) (place : Place) (index : IndexId),
      (run edits).state place index =
        (latestOfIndex place index edits).getD ((latestOfPart place edits).getD .normal) := by
  intro h
  have hsample := h [.setPart ⟨1, 2⟩ .rebuilding, .setIndex ⟨1, 2⟩ 7 .normal] ⟨1, 2⟩ 7
  exact absurd hsample (by decide)

end IndexMarkers

end EdgeDeletion
