/-
Pausing a store delays writes and does nothing else.

A run with pauses is compared with the run of its writes alone.  They are brought together by
letting everything go: a store is taken for what it is once nothing is held back any more.
Seen so, a pause and a resumption do nothing, and a write does what it does without pauses.

* `command_then_resume` — one command, with everything let go behind it or before it;
* `run_then_resume` — the same for a whole run;
* `balanced_run` — the books at every moment of a run;
* `pausing_only_delays` — with a resumption at the end, pauses make no difference.
-/
import EdgeDeletion.Delete.Node
import EdgeDeletion.Proofs.WriteOutcome

namespace EdgeDeletion

universe u

namespace Store

variable {τ : Type u} (s : Store τ)

/-! ### Counting -/

/-- Counting a write and applying one do not meet. -/
theorem apply_counted (w : Write τ) :
    s.counted.apply w = ((s.apply w).1.counted, (s.apply w).2) := by
  cases hfault : s.writeFaults.get? w.place with
  | some code =>
    rw [apply_of_fault hfault, apply_of_fault (s := s.counted) hfault]
    rfl
  | none =>
    cases hpart : s.contents w.place with
    | error code =>
      rw [apply_of_missing hfault hpart, apply_of_missing (s := s.counted) hfault hpart]
    | ok c =>
      cases hops : opsOf w.change with
      | error e =>
        rw [apply_of_no_batch hfault hpart hops,
          apply_of_no_batch (s := s.counted) hfault hpart hops]
      | ok ops =>
        rw [apply_of_batch hfault hpart hops, apply_of_batch (s := s.counted) hfault hpart hops]
        rfl

theorem applyAll_counted (ws : List (Write τ)) :
    s.counted.applyAll ws = ((s.applyAll ws).1.counted, (s.applyAll ws).2) := by
  induction ws generalizing s with
  | nil => rfl
  | cons w ws ih =>
    rw [applyAll, apply_counted]
    show (((s.apply w).1.counted.applyAll ws).1, _ :: ((s.apply w).1.counted.applyAll ws).2) = _
    rw [ih]
    rfl

theorem applyAll_submissions (ws : List (Write τ)) :
    (s.applyAll ws).1.submissions = s.submissions := by
  induction ws generalizing s with
  | nil => rfl
  | cons w ws ih => exact (ih (s.apply w).1).trans (s.apply_submissions w)

/-- A store counts the writes that are submitted to it. -/
theorem submissions_call (c : Call τ) :
    (s.call c).1.submissions = s.submissions + c.submitted.length := by
  cases c with
  | addPart place =>
    simp only [call, addPart]
    split <;> rfl
  | put place key value =>
    simp only [call, put]
    cases s.contents place <;> rfl
  | scan place start =>
    simp only [call, scan]
    split <;> rfl
  | submit w =>
    cases hheld : s.held with
    | none =>
      rw [call, submit_of_not_held hheld]
      exact s.counted.apply_submissions w
    | some queue =>
      rw [call, submit_of_held hheld]
      rfl
  | resume => exact applyAll_submissions _ _
  | _ => rfl

theorem submissions_calls (cs : List (Call τ)) :
    (s.calls cs).1.submissions = s.submissions + (cs.flatMap Call.submitted).length := by
  induction cs generalizing s with
  | nil => rfl
  | cons c cs ih =>
    have hrest : (s.calls (c :: cs)).1.submissions = ((s.call c).1.calls cs).1.submissions := rfl
    rw [hrest, ih, submissions_call, List.flatMap_cons, List.length_append, Nat.add_assoc]

/-! ### Commands -/

variable {s}

/-- What is done to a store by somebody who writes to it and at times pauses it. -/
inductive Command (τ : Type u) where
  | write (w : Write τ)
  | pause
  | resume

def Command.call : Command τ → Call τ
  | .write w => .submit w
  | .pause => .pause
  | .resume => .resume

/-- The writes among commands, in their order. -/
def writesOf (cs : List (Command τ)) : List (Write τ) := cs.flatMap fun c => c.call.submitted

/-- Does one command after the other. -/
def run (s : Store τ) (cs : List (Command τ)) : Store τ × List (Completion τ) :=
  s.calls (cs.map Command.call)

theorem writesOf_append (cs ds : List (Command τ)) :
    writesOf (cs ++ ds) = writesOf cs ++ writesOf ds := List.flatMap_append

theorem flatMap_submitted (cs : List (Command τ)) :
    (cs.map Command.call).flatMap Call.submitted = writesOf cs := List.flatMap_map ..

theorem run_cons (s : Store τ) (c : Command τ) (cs : List (Command τ)) :
    s.run (c :: cs)
      = (((s.call c.call).1.run cs).1, (s.call c.call).2 ++ ((s.call c.call).1.run cs).2) := rfl

theorem run_append (s : Store τ) (cs ds : List (Command τ)) :
    s.run (cs ++ ds) = (((s.run cs).1.run ds).1, (s.run cs).2 ++ ((s.run cs).1.run ds).2) := by
  induction cs generalizing s with
  | nil => rfl
  | cons c cs ih => rw [List.cons_append, run_cons, ih, run_cons, List.append_assoc]

/-- Resuming a store that holds nothing back changes nothing. -/
theorem resume_of_not_held (h : s.held = none) : s.resume = (s, []) := by
  cases s
  subst h
  rfl

theorem resume_held (s : Store τ) : s.resume.1.held = none := applyAll_held ..

/-- A resumption settles what is held back. -/
theorem resume_tokens (s : Store τ) :
    s.resume.2.map (·.token) = s.heldWrites.map (·.token) := applyAll_tokens ..

/-- A write that is submitted and let go is a write after everything is let go. -/
theorem submit_then_resume (s : Store τ) (w : Write τ) :
    s.run [.write w, .resume] = s.run [.resume, .write w] := by
  show ((s.submit w).1.resume.1, (s.submit w).2 ++ ((s.submit w).1.resume.2 ++ []))
    = ((s.resume.1.submit w).1, s.resume.2 ++ ((s.resume.1.submit w).2 ++ []))
  simp only [List.append_nil]
  rw [submit_of_not_held s.resume_held]
  cases hheld : s.held with
  | none =>
    have hafter : (s.counted.apply w).1.held = none := (s.counted.apply_held w).trans hheld
    rw [submit_of_not_held hheld, resume_of_not_held hheld, resume_of_not_held hafter]
    rfl
  | some queue =>
    -- the queue is applied first, and counting the new write does not matter to it
    have hqueue : s.resume = { s with held := none }.applyAll queue := by
      rw [resume, heldWrites, hheld]
      rfl
    have hboth : (s.submit w).1.resume
        = { s with held := none }.counted.applyAll (queue ++ [w]) := by
      rw [submit_of_held hheld]
      rfl
    have hdone : (s.submit w).2 = [] := by rw [submit_of_held hheld]
    rw [hboth, hdone, hqueue, applyAll_append, applyAll_counted]
    rfl

/-- A command with everything let go behind it is its write, if it has one, with everything let
go before. -/
theorem command_then_resume (s : Store τ) (c : Command τ) :
    s.run [c, .resume] = s.run (.resume :: (writesOf [c]).map .write) := by
  cases c with
  | write w => exact s.submit_then_resume w
  | pause =>
    cases hheld : s.held <;> simp [run, calls, call, Command.call, writesOf, Call.submitted, pause,
      resume, heldWrites, hheld]
  | resume =>
    have hagain : s.resume.1.resume = (s.resume.1, []) := resume_of_not_held s.resume_held
    simp [run, calls, call, Command.call, writesOf, Call.submitted, hagain]

/-- A run with everything let go behind it is the run of its writes with everything let go
before. -/
theorem run_then_resume (s : Store τ) (cs : List (Command τ)) :
    s.run (cs ++ [.resume]) = s.run (.resume :: (writesOf cs).map .write) := by
  induction cs generalizing s with
  | nil => rfl
  | cons c cs ih =>
    calc
      s.run (c :: (cs ++ [.resume])) = s.run ([c, .resume] ++ (writesOf cs).map .write) := by
        rw [run_cons, ih]
        rfl
      _ = s.run ((.resume :: (writesOf [c]).map .write) ++ (writesOf cs).map .write) := by
        rw [run_append, command_then_resume, ← run_append]
      _ = s.run (.resume :: (writesOf (c :: cs)).map .write) := by
        rw [List.cons_append, ← List.map_append, ← writesOf_append]
        rfl

/-! ### Books -/

/-- The books of a run when some of its commands were done. -/
structure Balanced (s : Store τ) (front : List (Command τ)) : Prop where
  /-- Every write so far is counted. -/
  submissions : (s.run front).1.submissions = s.submissions + (writesOf front).length
  /-- It has come back or is held back. -/
  accounted : s.submissions + ((s.run front).1.heldWrites.length + (s.run front).2.length)
    = (s.run front).1.submissions
  inOrder : (s.run front).2.map (·.token) ++ (s.run front).1.heldWrites.map (·.token)
    = (writesOf front).map (·.token)
  /-- What has come back is what comes back without pauses, less what is held back. -/
  early : ∃ later, (s.run ((writesOf front).map .write)).2 = (s.run front).2 ++ later ∧
    later.map (·.token) = (s.run front).1.heldWrites.map (·.token)
  /-- Resuming now lets go what is held back and leaves nothing behind. -/
  released : (s.run front).1.resume.1.held = none ∧
    (s.run front).1.resume.2.map (·.token) = (s.run front).1.heldWrites.map (·.token)

theorem run_tokens (s : Store τ) (cs : List (Command τ)) :
    (s.run cs).2.map (·.token) ++ (s.run cs).1.heldWrites.map (·.token)
      = (s.heldWrites ++ writesOf cs).map (·.token) := by
  have h := s.calls_tokens (cs.map Command.call)
  rwa [flatMap_submitted] at h

theorem run_submissions (s : Store τ) (cs : List (Command τ)) :
    (s.run cs).1.submissions = s.submissions + (writesOf cs).length := by
  have h := s.submissions_calls (cs.map Command.call)
  rwa [flatMap_submitted] at h

/-- From a store that holds nothing back, letting everything go at the end undoes all pauses. -/
theorem run_resume_of_not_held (hheld : s.held = none) (cs : List (Command τ)) :
    s.run (cs ++ [.resume]) = s.run ((writesOf cs).map .write) := by
  have hnow : s.call Command.resume.call = (s, []) := resume_of_not_held hheld
  rw [run_then_resume, run_cons, hnow]
  rfl

/-- The books are balanced all along. -/
theorem balanced_run (hheld : s.held = none) (front : List (Command τ)) : Balanced s front := by
  have hnothing : s.heldWrites = [] := by rw [heldWrites, hheld]; rfl
  have horder := s.run_tokens front
  rw [hnothing, List.nil_append] at horder
  refine ⟨s.run_submissions front, ?_, horder, ?_, resume_held _, resume_tokens _⟩
  · have hlen := congrArg List.length horder
    simp only [List.length_append, List.length_map] at hlen
    rw [run_submissions]
    omega
  · refine ⟨(s.run front).1.resume.2, ?_, resume_tokens _⟩
    rw [← run_resume_of_not_held hheld, run_append]
    show _ ++ ((s.run front).1.resume.2 ++ []) = _
    rw [List.append_nil]

end Store

/-- The number that a resumption of a node gives is that of the writes it settles. -/
theorem Node.resume_fst (n : Node) : n.resume.1 = n.store.resume.2.length := by
  have h := congrArg List.length n.store.resume_tokens
  rw [List.length_map, List.length_map] at h
  exact h.symm

namespace Store

variable {τ : Type u} {s : Store τ}

/-- **Pausing only delays writes.**  With a resumption at the end, a run with any pauses and
resumptions leaves the store and gives the outcomes that its writes alone leave and give.  Every
write comes back once, in the order of submission, and the books are balanced at every moment.
A resumption gives the number of the writes that it lets go. -/
theorem pausing_only_delays (hheld : s.held = none) (cs : List (Command τ)) :
    s.run (cs ++ [.resume]) = s.run ((writesOf cs).map .write) ∧
    (s.run (cs ++ [.resume])).2.map (·.token) = (writesOf cs).map (·.token) ∧
    (∀ front, front <+: cs ++ [.resume] → Balanced s front) ∧
    ∀ n : Node, n.resume.1 = n.store.resume.2.length := by
  refine ⟨run_resume_of_not_held hheld cs, ?_, fun front _ => balanced_run hheld front,
    Node.resume_fst⟩
  have hnone : (s.run (cs ++ [.resume])).1.held = none := by
    rw [run_append]
    exact resume_held (s.run cs).1
  have hwrites : writesOf (cs ++ [.resume]) = writesOf cs := by
    rw [writesOf_append]
    exact List.append_nil _
  have horder := (balanced_run hheld (cs ++ [.resume])).inOrder
  rw [heldWrites, hnone, hwrites] at horder
  simpa using horder

/-- A partition with a key and a pending fault. -/
def sampleFaulty : Store String :=
  { empty with
    parts := OrderedMap.empty.insert ⟨1, 3⟩ (OrderedMap.empty.insert [7] [])
    writeFaults := OrderedMap.empty.insert ⟨1, 3⟩ .writeStalled }

/-- Writes around two pauses in a row, of which the first takes the fault. -/
def sampleCommands : List (Command String) :=
  [.pause, .write ⟨⟨1, 3⟩, .remove [[7]], "first"⟩, .pause, .write ⟨⟨1, 3⟩, .batch [], "second"⟩,
    .resume, .resume, .write ⟨⟨1, 4⟩, .remove [[7]], "third"⟩, .pause,
    .write ⟨⟨1, 3⟩, .remove [[7]], "fourth"⟩]

theorem pausing_only_delays_sample :
    sampleFaulty.run (sampleCommands ++ [.resume])
        = sampleFaulty.run ((writesOf sampleCommands).map .write) ∧
      (sampleFaulty.run (sampleCommands ++ [.resume])).2.map (·.token)
        = ["first", "second", "third", "fourth"] ∧
      (sampleFaulty.run (sampleCommands ++ [.resume])).2.map (·.result)
        = [.error .writeStalled, .error .unknown, .error .partNotFound, .ok ()] ∧
      (sampleFaulty.run (sampleCommands ++ [.resume])).1.get? ⟨1, 3⟩ [7] = none ∧
      Balanced sampleFaulty (sampleCommands.take 4) ∧
      (sampleFaulty.run (sampleCommands.take 4)).1.heldWrites.length = 2 := by
  have hheld : sampleFaulty.held = none := rfl
  obtain ⟨hsame, htokens, hbooks, -⟩ := pausing_only_delays hheld sampleCommands
  have hfront : sampleCommands.take 4 <+: sampleCommands ++ [.resume] :=
    (List.take_prefix 4 _).trans (List.prefix_append ..)
  exact ⟨hsame, htokens, rfl, rfl, hbooks _ hfront, rfl⟩

end Store

end EdgeDeletion
