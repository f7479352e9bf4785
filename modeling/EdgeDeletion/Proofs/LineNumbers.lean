/-
Contents that are the same but for the numbers of some lines of the log.

Two runs may draw different numbers for what they put off.  A `LogLine` is a line that both
of them have added to a log, with its numbers in the first and in the second, and contents
are compared up to such lines.

* `SameButNumbers` — contents that differ in the numbers of their new lines only;
* `SameButNumbers.of_draws` — what is added under any new numbers is the same but for these;
* `SameButNumbers.size_eq` — contents that are the same but for numbers have the same size.
-/
import EdgeDeletion.Proofs.Contents
import EdgeDeletion.Proofs.KeyLayout

namespace EdgeDeletion

/-! ### Lines of the log in two runs -/

/-- A line that both runs have added to the log, with its numbers in the first and in the second. -/
structure LogLine where
  place : Place
  first : UInt64
  second : UInt64
  key : Bytes

namespace LogLine

/-- Lines for deferred keys, with the numbers drawn for them in either run. -/
def ofDraws (place : Place) : List UInt64 → List UInt64 → List Bytes → List LogLine
  | x :: xs, y :: ys, key :: keys => ⟨place, x, y, key⟩ :: ofDraws place xs ys keys
  | _, _, _ => []

theorem map_ofDraws (place : Place) {xs ys : List UInt64} {keys : List Bytes}
    (hxs : xs.length = keys.length) (hys : ys.length = keys.length) :
    (ofDraws place xs ys keys).map (·.first) = xs ∧
      (ofDraws place xs ys keys).map (·.second) = ys ∧
      (ofDraws place xs ys keys).map (·.key) = keys ∧
      ∀ line ∈ ofDraws place xs ys keys, line.place = place := by
  induction keys generalizing xs ys with
  | nil =>
    obtain rfl := List.eq_nil_of_length_eq_zero hxs
    obtain rfl := List.eq_nil_of_length_eq_zero hys
    simp [ofDraws]
  | cons key keys ih =>
    obtain ⟨x, xs, rfl⟩ := List.exists_cons_of_length_eq_add_one hxs
    obtain ⟨y, ys, rfl⟩ := List.exists_cons_of_length_eq_add_one hys
    obtain ⟨hfirst, hsecond, hkey, hplace⟩ := ih (Nat.succ.inj hxs) (Nat.succ.inj hys)
    refine ⟨congrArg (x :: ·) hfirst, congrArg (y :: ·) hsecond, congrArg (key :: ·) hkey, ?_⟩
    intro line hline
    rcases List.mem_cons.1 hline with rfl | hline
    · rfl
    · exact hplace line hline

/-- The lines of a partition, under the numbers of one of the runs. -/
def inPart (log : List LogLine) (place : Place) (number : LogLine → UInt64) :
    List (UInt64 × Bytes) :=
  (log.filter fun line => line.place = place).map fun line => (number line, line.key)

theorem inPart_append (log log' : List LogLine) (place : Place) (number : LogLine → UInt64) :
    inPart (log ++ log') place number = inPart log place number ++ inPart log' place number := by
  rw [inPart, List.filter_append, List.map_append]
  rfl

/-- New lines of one partition show there alone. -/
theorem inPart_new {log : List LogLine} {place : Place} (hplace : ∀ line ∈ log, line.place = place)
    (number : LogLine → UInt64) (place' : Place) :
    inPart log place' number
      = if place' = place then (log.map number).zip (log.map (·.key)) else [] := by
  rw [inPart]
  by_cases h : place' = place
  · subst h
    rw [if_pos rfl, List.zip_map',
      List.filter_eq_self.2 fun line hline => by simpa using hplace line hline]
  · rw [if_neg h, List.filter_eq_nil_iff.2 fun line hline => ?_, List.map_nil]
    rw [hplace line hline]
    simpa using Ne.symm h

end LogLine

/-! ### Contents up to the numbers of lines -/

/-- Lines under numbers that differ, and that are new to the log, add to the size. -/
theorem Contents.size_withLog {c : Contents} (part : PartId) {lines : List (UInt64 × Bytes)}
    (hnew : ∀ line ∈ lines, c.get? (Key.deferral part line.1) = none)
    (hne : (lines.map Prod.fst).Pairwise (· ≠ ·)) :
    (c.withLog part lines).size = c.size + lines.length := by
  induction lines generalizing c with
  | nil => rfl
  | cons line lines ih =>
    obtain ⟨hline, hne⟩ := List.pairwise_cons.1 hne
    have hfirst := hnew line (List.mem_cons_self ..)
    have hrest : ∀ line' ∈ lines, (c.insert (Key.deferral part line.1) line.2).get?
        (Key.deferral part line'.1) = none := by
      intro line' hline'
      rw [OrderedMap.get?_insert, if_neg, hnew line' (List.mem_cons_of_mem _ hline')]
      exact fun heq => hline _ (List.mem_map_of_mem hline') (Key.deferral_inj heq).symm
    rw [Contents.withLog_cons, ih hrest hne, OrderedMap.size_insert hfirst, List.length_cons]
    omega

/-- The contents of a partition in two runs are the same but for some lines of the log, which are
new in both and differ in their numbers only. -/
def SameButNumbers (part : PartId) (lines : List LogLine) (first second : Option Contents) : Prop :=
  ∃ rest : Option Contents,
    first = rest.map (·.withLog part (lines.map fun line => (line.first, line.key))) ∧
    second = rest.map (·.withLog part (lines.map fun line => (line.second, line.key))) ∧
    ∀ c, rest = some c → ∀ line ∈ lines, c.get? (Key.deferral part line.first) = none ∧
      c.get? (Key.deferral part line.second) = none

namespace SameButNumbers

variable {part : PartId} {lines : List LogLine} {first second : Option Contents}

/-- Under any numbers that are new, the same lines are added. -/
theorem of_draws (place : Place) {rest : Option Contents} {xs ys : List UInt64} {keys : List Bytes}
    (hxs : xs.length = keys.length) (hys : ys.length = keys.length)
    (hnew : ∀ c, rest = some c → ∀ x, x ∈ xs ∨ x ∈ ys → c.get? (Key.deferral part x) = none) :
    SameButNumbers part (LogLine.ofDraws place xs ys keys)
      (rest.map (·.withLog part (xs.zip keys))) (rest.map (·.withLog part (ys.zip keys))) := by
  obtain ⟨hfirst, hsecond, hkeys, -⟩ := LogLine.map_ofDraws place hxs hys
  generalize LogLine.ofDraws place xs ys keys = lines at hfirst hsecond hkeys
  refine ⟨rest, ?_, ?_, fun c hc line hline => ⟨hnew c hc _ (.inl ?_), hnew c hc _ (.inr ?_)⟩⟩
  · rw [← hfirst, ← hkeys, List.zip_map']
  · rw [← hsecond, ← hkeys, List.zip_map']
  · rw [← hfirst]
    exact List.mem_map_of_mem hline
  · rw [← hsecond]
    exact List.mem_map_of_mem hline

theorem size_eq (h : SameButNumbers part lines first second)
    (hfirst : (lines.map (·.first)).Pairwise (· < ·))
    (hsecond : (lines.map (·.second)).Pairwise (· < ·)) :
    first.map OrderedMap.size = second.map OrderedMap.size := by
  obtain ⟨rest, rfl, rfl, hnew⟩ := h
  cases rest with
  | none => rfl
  | some c =>
    have hsize : ∀ number : LogLine → UInt64,
        (∀ line ∈ lines, c.get? (Key.deferral part (number line)) = none) →
        (lines.map number).Pairwise (· < ·) →
        (c.withLog part (lines.map fun line => (number line, line.key))).size
          = c.size + lines.length := by
      intro number hunused hascend
      rw [Contents.size_withLog, List.length_map]
      · simpa using hunused
      · rw [List.map_map]
        exact hascend.imp UInt64.ne_of_lt
    have hfirst := hsize (·.first) (fun line hline => (hnew c rfl line hline).1) hfirst
    have hsecond := hsize (·.second) (fun line hline => (hnew c rfl line hline).2) hsecond
    exact congrArg some (hfirst.trans hsecond.symm)

end SameButNumbers

end EdgeDeletion
