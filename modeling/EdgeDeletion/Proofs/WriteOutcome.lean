/-
What becomes of a write.

A write takes the fault that is pending at its partition, if there is one.  Without a
fault it needs the partition and a payload that is a batch.  Whatever stops it leaves
all contents as they were.

* `get?_apply` — of the operations on a key the last one counts;
* `outcome_iff` — the outcome of a write is the first of the reasons that apply;
* `settles_apply` — what a write finds decides what it leaves and what comes back;
* `writes_settle_once` — a write is settled when it is submitted or when the writes held
  back are let go, once, and in the order of submission.
-/
import EdgeDeletion.Proofs.Contents
import Mathlib.Data.List.Induction

namespace EdgeDeletion

universe u

/-! ### The last operation on a key -/

/-- What an operation leaves at its key. -/
def BatchOp.left? : BatchOp → Option Bytes
  | .put _ value => some value
  | .remove _ => none

namespace Contents

/-- The last of the operations on a key. -/
def lastOn (ops : List BatchOp) (key : Bytes) : Option BatchOp :=
  ops.reverse.find? fun op => op.key == key

theorem lastOn_concat (ops : List BatchOp) (op : BatchOp) (key : Bytes) :
    lastOn (ops ++ [op]) key = if op.key = key then some op else lastOn ops key := by
  rw [lastOn, List.reverse_concat, List.find?_cons]
  by_cases h : op.key = key
  · simp [h]
  · rw [if_neg h, beq_false_of_ne h, lastOn]

theorem apply_concat (c : Contents) (ops : List BatchOp) (op : BatchOp) :
    c.apply (ops ++ [op]) = apply (c.apply ops) [op] := List.foldl_append

theorem get?_apply_singleton (c : Contents) (op : BatchOp) (key : Bytes) :
    (c.apply [op]).get? key = if op.key = key then op.left? else c.get? key := by
  cases op with
  | put k value =>
    rw [apply_put, apply_nil, OrderedMap.get?_insert]
    simp only [BatchOp.key, BatchOp.left?, eq_comm]
  | remove k =>
    rw [apply_remove, apply_nil, OrderedMap.get?_erase]
    simp only [BatchOp.key, BatchOp.left?, eq_comm]

/-- Of the operations on a key the last one counts. -/
theorem get?_apply (c : Contents) (ops : List BatchOp) (key : Bytes) :
    (c.apply ops).get? key
      = match lastOn ops key with
        | some op => op.left?
        | none => c.get? key := by
  induction ops using List.reverseRecOn with
  | nil => rfl
  | append_singleton ops op ih =>
    rw [apply_concat, get?_apply_singleton, lastOn_concat, ih]
    by_cases h : op.key = key <;> simp [h]

end Contents

/-! ### Outcomes -/

/-- Whether a change stands for some operations. -/
def Change.Means : Change → List BatchOp → Prop
  | .remove keys, ops => ops = keys.map .remove
  | .batch payload, ops => Batch.decode payload = .ok ops

namespace Store

variable {τ : Type u}

/-- The outcome of a write by what it finds: a fault, no partition of the space, only other
partitions of the space, a payload that is no batch, or nothing that stops it. -/
inductive Outcome (s : Store τ) (w : Write τ) : Except StoreCode Unit → Prop
  | fault {code : StoreCode} (hfault : s.writeFaults.get? w.place = some code) :
    Outcome s w (.error code)
  | noSpace (hfault : s.writeFaults.get? w.place = none)
    (hspace : ∀ p ∈ s.parts.keys, p.space ≠ w.place.space) : Outcome s w (.error .spaceNotFound)
  | noPart (hfault : s.writeFaults.get? w.place = none) (hpart : w.place ∉ s.parts.keys)
    (hspace : ∃ p ∈ s.parts.keys, p.space = w.place.space) : Outcome s w (.error .partNotFound)
  | noBatch {payload : Bytes} {e : BatchError} (hfault : s.writeFaults.get? w.place = none)
    (hpart : w.place ∈ s.parts.keys) (hchange : w.change = .batch payload)
    (hdecode : Batch.decode payload = .error e) : Outcome s w (.error .unknown)
  | done {ops : List BatchOp} (hfault : s.writeFaults.get? w.place = none)
    (hpart : w.place ∈ s.parts.keys) (hops : w.change.Means ops) : Outcome s w (.ok ())

variable {s : Store τ} {w : Write τ}

theorem opsOf_eq_ok_iff {change : Change} {ops : List BatchOp} :
    opsOf change = .ok ops ↔ change.Means ops := by
  cases change with
  | remove keys => simp [opsOf, Change.Means, eq_comm]
  | batch payload => rfl

theorem opsOf_eq_error_iff {change : Change} {e : BatchError} :
    opsOf change = .error e ↔
      ∃ payload, change = .batch payload ∧ Batch.decode payload = .error e := by
  cases change <;> simp [opsOf]

theorem contents_eq_error_iff {place : Place} {code : StoreCode} :
    s.contents place = .error code ↔ place ∉ s.parts.keys ∧ s.missingCode place = code := by
  rw [contents, OrderedMap.mem_keys_iff]
  cases s.parts.get? place <;> simp

theorem exists_contents_of_mem {place : Place} (h : place ∈ s.parts.keys) :
    ∃ c, s.contents place = .ok c := by
  obtain ⟨c, hc⟩ := Option.isSome_iff_exists.1 (OrderedMap.mem_keys_iff.1 h)
  exact ⟨c, contents_eq_ok_iff.2 hc⟩

theorem mem_keys_of_contents {place : Place} {c : Contents} (h : s.contents place = .ok c) :
    place ∈ s.parts.keys := by
  simp [OrderedMap.mem_keys_iff, contents_eq_ok_iff.1 h]

theorem missingCode_of_space {place : Place} (h : ∃ p ∈ s.parts.keys, p.space = place.space) :
    s.missingCode place = .partNotFound := by
  simpa [missingCode] using h

theorem missingCode_of_no_space {place : Place} (h : ∀ p ∈ s.parts.keys, p.space ≠ place.space) :
    s.missingCode place = .spaceNotFound := by
  simpa [missingCode] using h

/-! The course of a write, by what stops it first. -/

theorem apply_of_fault {code : StoreCode} (hfault : s.writeFaults.get? w.place = some code) :
    s.apply w
      = ({ s with writeFaults := s.writeFaults.erase w.place }, ⟨w.token, .error code, none⟩) := by
  simp [apply, hfault]

theorem apply_of_missing {code : StoreCode} (hfault : s.writeFaults.get? w.place = none)
    (hpart : s.contents w.place = .error code) :
    s.apply w = (s, ⟨w.token, .error code, none⟩) := by
  simp [apply, hfault, hpart]

theorem apply_of_no_batch {c : Contents} {e : BatchError}
    (hfault : s.writeFaults.get? w.place = none) (hpart : s.contents w.place = .ok c)
    (hops : opsOf w.change = .error e) : s.apply w = (s, ⟨w.token, .error .unknown, some e⟩) := by
  simp [apply, hfault, hpart, hops]

theorem apply_of_batch {c : Contents} {ops : List BatchOp}
    (hfault : s.writeFaults.get? w.place = none) (hpart : s.contents w.place = .ok c)
    (hops : opsOf w.change = .ok ops) :
    s.apply w
      = ({ s with parts := s.parts.insert w.place (c.apply ops) }, ⟨w.token, .ok (), none⟩) := by
  simp [apply, hfault, hpart, hops]

/-- The outcome of a write is the first of the reasons that apply. -/
theorem outcome_iff {result : Except StoreCode Unit} :
    (s.apply w).2.result = result ↔ Outcome s w result := by
  constructor
  · rintro rfl
    cases hfault : s.writeFaults.get? w.place with
    | some code =>
      rw [apply_of_fault hfault]
      exact .fault hfault
    | none =>
      cases hpart : s.contents w.place with
      | error code =>
        rw [apply_of_missing hfault hpart]
        obtain ⟨hmem, hcode⟩ := contents_eq_error_iff.1 hpart
        by_cases hspace : ∃ p ∈ s.parts.keys, p.space = w.place.space
        · obtain rfl := (missingCode_of_space hspace).symm.trans hcode
          exact .noPart hfault hmem hspace
        · have hnone : ∀ p ∈ s.parts.keys, p.space ≠ w.place.space := by simpa using hspace
          obtain rfl := (missingCode_of_no_space hnone).symm.trans hcode
          exact .noSpace hfault hnone
      | ok c =>
        cases hops : opsOf w.change with
        | error e =>
          rw [apply_of_no_batch hfault hpart hops]
          obtain ⟨payload, hchange, hdecode⟩ := opsOf_eq_error_iff.1 hops
          exact .noBatch hfault (mem_keys_of_contents hpart) hchange hdecode
        | ok ops =>
          rw [apply_of_batch hfault hpart hops]
          exact .done hfault (mem_keys_of_contents hpart) (opsOf_eq_ok_iff.1 hops)
  · intro h
    cases h with
    | fault hfault => rw [apply_of_fault hfault]
    | noSpace hfault hspace =>
      have hmem : w.place ∉ s.parts.keys := fun hmem => hspace w.place hmem rfl
      rw [apply_of_missing hfault
        (contents_eq_error_iff.2 ⟨hmem, missingCode_of_no_space hspace⟩)]
    | noPart hfault hmem hspace =>
      rw [apply_of_missing hfault (contents_eq_error_iff.2 ⟨hmem, missingCode_of_space hspace⟩)]
    | noBatch hfault hmem hchange hdecode =>
      obtain ⟨c, hpart⟩ := exists_contents_of_mem hmem
      rw [apply_of_no_batch hfault hpart (opsOf_eq_error_iff.2 ⟨_, hchange, hdecode⟩)]
    | done hfault hmem hops =>
      obtain ⟨c, hpart⟩ := exists_contents_of_mem hmem
      rw [apply_of_batch hfault hpart (opsOf_eq_ok_iff.2 hops)]

/-! ### Settled writes -/

/-- A write to one store leaves another one, and a completion for its submitter. -/
structure Settles (s : Store τ) (w : Write τ) (s' : Store τ) (done : Completion τ) : Prop where
  token : done.token = w.token
  outcome : ∀ result, done.result = result ↔ Outcome s w result
  /-- A write that fails leaves all contents. -/
  kept : done.result ≠ .ok () → s'.parts = s.parts
  /-- A write that succeeds has all its operations applied, in their order. -/
  applied : done.result = .ok () → ∃ c ops, s.parts.get? w.place = some c ∧
    w.change.Means ops ∧ s'.parts.get? w.place = some (c.apply ops) ∧
    ∀ key, (c.apply ops).get? key
      = match Contents.lastOn ops key with
        | some op => op.left?
        | none => c.get? key
  others : ∀ place, place ≠ w.place → s'.parts.get? place = s.parts.get? place
  /-- The fault of the partition is used up, and no other one is. -/
  writeFaults : ∀ place,
    s'.writeFaults.get? place = if place = w.place then none else s.writeFaults.get? place
  scanFaults : s'.scanFaults = s.scanFaults
  held : s'.held = s.held
  submissions : s'.submissions = s.submissions

theorem apply_scanFaults (s : Store τ) (w : Write τ) : (s.apply w).1.scanFaults = s.scanFaults := by
  obtain ⟨faults, parts, h, -⟩ := s.apply_fst w
  rw [h]

theorem get?_writeFaults_apply (s : Store τ) (w : Write τ) (place : Place) :
    (s.apply w).1.writeFaults.get? place
      = if place = w.place then none else s.writeFaults.get? place := by
  cases hfault : s.writeFaults.get? w.place with
  | some code => rw [apply_of_fault hfault, OrderedMap.get?_erase]
  | none =>
    have hsame : (s.apply w).1.writeFaults = s.writeFaults := by
      simp only [apply, hfault]
      split
      · rfl
      · split <;> rfl
    rw [hsame]
    split
    · simp_all
    · rfl

/-- What a write finds decides what it leaves and what comes back. -/
theorem settles_apply (s : Store τ) (w : Write τ) : Settles s w (s.apply w).1 (s.apply w).2 where
  token := s.apply_token w
  outcome _ := outcome_iff
  kept h := by
    cases hresult : (s.apply w).2.result with
    | ok _ => exact absurd hresult h
    | error code => exact apply_parts_of_error hresult
  applied h := by
    obtain ⟨c, ops, hc, hops, hparts⟩ := apply_of_ok h
    have hleft : (s.apply w).1.parts.get? w.place = some (c.apply ops) := by
      rw [hparts, OrderedMap.get?_insert, if_pos rfl]
    exact ⟨c, ops, hc, opsOf_eq_ok_iff.1 hops, hleft, c.get?_apply ops⟩
  others _ hne := s.get?_parts_apply_of_ne w hne
  writeFaults := s.get?_writeFaults_apply w
  scanFaults := s.apply_scanFaults w
  held := s.apply_held w
  submissions := s.apply_submissions w

/-- Writes are settled one after the other, each in the store that the ones before it left. -/
inductive SettlesAll : Store τ → List (Write τ) → Store τ → List (Completion τ) → Prop
  | nil (s : Store τ) : SettlesAll s [] s []
  | cons {s s' s'' : Store τ} {w : Write τ} {ws : List (Write τ)} {done : Completion τ}
    {rest : List (Completion τ)} (first : Settles s w s' done)
    (others : SettlesAll s' ws s'' rest) : SettlesAll s (w :: ws) s'' (done :: rest)

theorem settlesAll_applyAll (s : Store τ) (ws : List (Write τ)) :
    SettlesAll s ws (s.applyAll ws).1 (s.applyAll ws).2 := by
  induction ws generalizing s with
  | nil => exact .nil s
  | cons w ws ih => exact .cons (s.settles_apply w) (ih (s.apply w).1)

/-! ### Runs of a store -/

/-- What is done to a store. -/
inductive Call (τ : Type u) where
  | addPart (place : Place)
  | put (place : Place) (key value : Bytes)
  | failWrite (place : Place) (code : StoreCode)
  | failScan (place : Place) (code : StoreCode)
  | scan (place : Place) (start : Bytes)
  | submit (w : Write τ)
  | pause
  | resume

/-- The write that a call submits. -/
def Call.submitted : Call τ → List (Write τ)
  | .submit w => [w]
  | _ => []

/-- Does one thing; gives the completions that come back. -/
def call (s : Store τ) : Call τ → Store τ × List (Completion τ)
  | .addPart place => (s.addPart place, [])
  | .put place key value =>
    match s.put place key value with
    | .ok s => (s, [])
    | .error _ => (s, [])
  | .failWrite place code => (s.failWrite place code, [])
  | .failScan place code => (s.failScan place code, [])
  | .scan place start => ((s.scan place start).1, [])
  | .submit w => s.submit w
  | .pause => (s.pause, [])
  | .resume => s.resume

/-- Does one thing after the other. -/
def calls (s : Store τ) : List (Call τ) → Store τ × List (Completion τ)
  | [] => (s, [])
  | c :: cs =>
    let (s, done) := s.call c
    let (s, rest) := calls s cs
    (s, done ++ rest)

/-- The writes that a call settles. -/
def due (s : Store τ) : Call τ → List (Write τ)
  | .submit w => if s.held.isSome then [] else [w]
  | .resume => s.heldWrites
  | _ => []

variable (s : Store τ) (c : Call τ)

/-- What a call settles and what it leaves held back was held back before, or is new. -/
theorem due_append_heldWrites :
    s.due c ++ (s.call c).1.heldWrites = s.heldWrites ++ c.submitted := by
  cases c with
  | addPart place =>
    simp only [due, call, addPart, Call.submitted, List.append_nil, List.nil_append]
    split <;> rfl
  | put place key value =>
    simp only [due, call, put, Call.submitted, List.append_nil, List.nil_append]
    cases s.contents place <;> rfl
  | failWrite place code => exact (List.append_nil _).symm
  | failScan place code => exact (List.append_nil _).symm
  | scan place start =>
    simp only [due, call, scan, Call.submitted, List.append_nil, List.nil_append]
    split <;> rfl
  | submit w =>
    rw [call, heldWrites, heldWrites, held_submit]
    cases hheld : s.held <;> simp [due, hheld, Call.submitted]
  | pause => simp [due, call, pause, heldWrites, Call.submitted]
  | resume =>
    have hnone : s.resume.1.heldWrites = [] := by
      rw [heldWrites, resume, applyAll_held]
      rfl
    simp [due, call, hnone, Call.submitted]

/-- A call completes the writes that it settles. -/
theorem call_tokens : (s.call c).2.map (·.token) = (s.due c).map (·.token) := by
  cases c with
  | put place key value =>
    simp only [due, call]
    split <;> rfl
  | submit w =>
    cases hheld : s.held with
    | none =>
      rw [call, submit_of_not_held hheld]
      simp [due, hheld, apply_token]
    | some queue =>
      rw [call, submit_of_held hheld]
      simp [due, hheld]
  | resume => exact applyAll_tokens ..
  | _ => rfl

/-- Over a run, the writes that were held back or submitted have come back, in this order, up to
those that are still held back. -/
theorem calls_tokens (cs : List (Call τ)) :
    (s.calls cs).2.map (·.token) ++ (s.calls cs).1.heldWrites.map (·.token)
      = (s.heldWrites ++ cs.flatMap Call.submitted).map (·.token) := by
  induction cs generalizing s with
  | nil => simp [calls]
  | cons c cs ih =>
    rw [calls, List.map_append, List.append_assoc, ih (s.call c).1, call_tokens, ← List.map_append,
      ← List.append_assoc, due_append_heldWrites, List.flatMap_cons, List.append_assoc]

/-- A write is settled when it is submitted or, if it is held back then, with all the others that
are, at the next resumption.  In any run the writes come back in the order of their submission,
each once, up to those that are still held back. -/
theorem writes_settle_once :
    (∀ w, Settles s w (s.apply w).1 (s.apply w).2) ∧
    (∀ w, s.held = none → SettlesAll s.counted [w] (s.submit w).1 (s.submit w).2) ∧
    (∀ w queue, s.held = some queue →
      s.submit w = ({ s.counted with held := some (queue ++ [w]) }, [])) ∧
    SettlesAll { s with held := none } s.heldWrites s.resume.1 s.resume.2 ∧
    ∀ cs : List (Call τ), (s.calls cs).2.map (·.token) ++ (s.calls cs).1.heldWrites.map (·.token)
      = (s.heldWrites ++ cs.flatMap Call.submitted).map (·.token) := by
  refine ⟨s.settles_apply, fun w hheld => ?_, fun w queue hheld => submit_of_held hheld,
    settlesAll_applyAll .., s.calls_tokens⟩
  rw [submit_of_not_held hheld]
  exact .cons (s.counted.settles_apply w) (.nil _)

end Store

end EdgeDeletion
