/-
Runs with pauses, and what such a run comes to.

Requests come in while writes are held back and let go.  What a node has come to is
measured from its start: some keys have been removed, and the logs have gained some lines
under numbers that were drawn.  Writes that are still held back count as applied.

* `admitted` — the pairs of a run that the lock table does not refuse;
* `pausedRun`, `serialRun` — the ends of a run with pauses and of the serial run of its pairs;
* `Reached` — what has been removed and added so far, and `Reached.work_applied`,
  `Reached.work_failed` for what one more turn does.
-/
import EdgeDeletion.Proofs.LineNumbers
import EdgeDeletion.Proofs.Mirror

namespace EdgeDeletion

/-! ### Runs -/

/-- What happens to a node in a run with pauses. -/
inductive Move where
  | delete (r : DeleteRequest)
  | pause
  | resume

/-- A partition of a request with its edges. -/
structure Pair where
  request : Nat
  place : Place
  edges : List Edge

/-- The request for one partition alone. -/
def Pair.alone (p : Pair) : DeleteRequest :=
  (DeleteRequest.empty p.place.space).addPart p.place.part p.edges

def Turn.pair (t : Turn) : Pair := ⟨t.request, t.place, t.edges⟩

namespace Node

def move (n : Node) : Move → Node
  | .delete r => (n.process r).2
  | .pause => n.pause
  | .resume => n.resume.2

def moveAll (n : Node) (moves : List Move) : Node := moves.foldl move n

/-- The pairs of turns that the lock table does not refuse. -/
def admittedAlong (n : Node) : List Turn → List Pair
  | [] => []
  | t :: ts => (if n.conflicts t then [] else [t.pair]) ++ (n.work t).admittedAlong ts

/-- The pairs of a request that the lock table does not refuse.  No partition gets to the lock
table if the space is not known. -/
def admittedIn (n : Node) (r : DeleteRequest) : List Pair :=
  match n.turns r with
  | .error _ => r.parts.entries.map fun p => ⟨n.requests.length, ⟨r.space, p.1⟩, p.2⟩
  | .ok ts => (n.arrived r).admittedAlong ts

/-- The pairs of a run that the lock table does not refuse, in the order in which they were worked
on. -/
def admitted (n : Node) : List Move → List Pair
  | [] => []
  | .delete r :: moves => n.admittedIn r ++ (n.process r).2.admitted moves
  | .pause :: moves => n.pause.admitted moves
  | .resume :: moves => n.resume.2.admitted moves

/-- Takes pairs one at a time, each of them as a request of its own. -/
def serial (n : Node) (pairs : List Pair) : Node := pairs.foldl (fun n p => (n.process p.alone).2) n

/-- The end of a run with pauses: what is still held back is applied. -/
def pausedRun (n : Node) (moves : List Move) : Node := (n.moveAll moves).resume.2

/-- The end of the serial run from the same start, with numbers from any sequencer. -/
def serialRun (n : Node) (q : Sequencer) (moves : List Move) : Node :=
  { n with sequencer := q }.serial (n.admitted moves)

end Node

namespace Node

variable {start n m : Node} {t : Turn} {removed : Place → List Bytes} {log new : List LogLine}
  {number : LogLine → UInt64}

/-! ### One run -/

/-- The node has come from the start by removals and by new lines of the log, whose numbers are
some of those drawn. -/
structure Reached (start : Node) (removed : Place → List Bytes) (log : List LogLine)
    (number : LogLine → UInt64) (n : Node) : Prop where
  drawn : ∃ k, n.sequencer = (start.sequencer.drawMany k).2 ∧
    (log.map number).Sublist (start.sequencer.drawMany k).1
  parts : ∀ place, n.store.landed.parts.get? place = (start.store.parts.get? place).map fun c =>
    (c.without (removed place)).withLog place.part (LogLine.inPart log place number)

theorem reached_start (start : Node) (hheld : start.store.held = none) (number : LogLine → UInt64) :
    Reached start (fun _ => []) [] number start := by
  refine ⟨⟨0, rfl, List.Sublist.refl _⟩, fun place => ?_⟩
  rw [Store.landed, Store.landing_of_not_held hheld]
  simp [LogLine.inPart, Store.bare]

theorem Reached.congr (h : Reached start removed log number n)
    (hsequencer : m.sequencer = n.sequencer) (hlanded : m.store.landed = n.store.landed) :
    Reached start removed log number m := by
  refine ⟨?_, fun place => ?_⟩
  · rw [hsequencer]
    exact h.drawn
  · rw [hlanded]
    exact h.parts place

/-- A turn that changes nothing in the end may have drawn numbers. -/
theorem Reached.work_failed (h : Reached start removed log number n)
    (hsame : (n.work t).store.landed = n.store.landed) :
    Reached start removed log number (n.work t) := by
  obtain ⟨k, hk, hsub⟩ := h.drawn
  obtain ⟨faults, j, hj⟩ := n.planned_eq t
  refine ⟨⟨k + j, ?_, ?_⟩, fun place => ?_⟩
  · rw [sequencer_work, hj, hk, Sequencer.drawMany_add]
  · rw [Sequencer.drawMany_add]
    exact hsub.trans (List.sublist_append_left ..)
  · rw [hsame]
    exact h.parts place

/-- The keys removed so far and those of one more turn. -/
def andRemoved (removed : Place → List Bytes) (place : Place) (keys : List Bytes) :
    Place → List Bytes :=
  fun place' => if place' = place then removed place' ++ keys else removed place'

/-- A turn whose write succeeds removes its keys and adds its lines. -/
theorem Reached.work_applied (h : Reached start removed log number n) (hf : n.Faultless)
    {change : Change} {edges : Nat} {hold : Option Hold}
    (hverdict : n.verdict t = .write change edges hold)
    (hok : (n.store.landed.apply (t.write change edges hold)).2.result = .ok ())
    (hnumbers : new.map number = n.numbersIn t) (hkeys : new.map (·.key) = n.deferredIn t)
    (hplace : ∀ line ∈ new, line.place = t.place) :
    Reached start (andRemoved removed t.place (n.removedIn t)) (log ++ new) number (n.work t) := by
  obtain ⟨hdoes, htags, hsequencer⟩ := does_of_verdict hverdict
  obtain ⟨k, hk, hsub⟩ := h.drawn
  refine ⟨⟨k + (n.deferredIn t).length, ?_, ?_⟩, fun place => ?_⟩
  · rw [sequencer_work, hsequencer, hk, Sequencer.drawMany_add]
  · rw [Sequencer.drawMany_add, List.map_append, hnumbers, numbersIn, hk]
    exact hsub.append (List.Sublist.refl _)
  · -- what is left to show is that removals and new lines commute with those before
    rw [LogLine.inPart_append, LogLine.inPart_new hplace, hnumbers, hkeys, andRemoved]
    rcases landed_work_cases hf hverdict with ⟨-, hfails⟩ | ⟨-, c, hc, hafter⟩
    · exact absurd hok hfails
    rw [hafter]
    by_cases hother : place = t.place
    · subst hother
      have hbefore := h.parts t.place
      rw [hc] at hbefore
      cases hstart : start.store.parts.get? t.place with
      | none => simp [hstart] at hbefore
      | some d =>
        rw [hstart, Option.map_some, Option.some.injEq] at hbefore
        have hlog : ∀ line ∈ LogLine.inPart log t.place number,
            Key.deferral t.place.part line.1 ∉ n.removedIn t :=
          fun line _ hmem => htags _ hmem (Key.head?_deferral ..)
        rw [if_pos rfl, if_pos rfl, if_pos rfl, Option.map_some, hbefore,
          Contents.withLog_without hlog, ← Contents.without_append, ← Contents.withLog_append]
    · rw [if_neg hother, if_neg hother, if_neg hother, List.append_nil]
      exact h.parts place

theorem Reached.mem_drawn (h : Reached start removed log number n) :
    ∀ line ∈ log, number line ∈ start.drawnUntil n := by
  obtain ⟨k, hk, hsub⟩ := h.drawn
  intro line hline
  rw [drawnUntil_of_eq hk]
  exact hsub.subset (List.mem_map.2 ⟨line, hline, rfl⟩)

theorem Reached.ascending (h : Reached start removed log number n)
    (hbelow : ∀ x ∈ (start.drawnUntil n).dropLast, x ≠ 0xffffffffffffffff) :
    (log.map number).Pairwise (· < ·) := by
  obtain ⟨k, hk, hsub⟩ := h.drawn
  have hascend := drawnUntil_ascending hbelow
  rw [drawnUntil_of_eq hk] at hascend
  exact hascend.sublist hsub

end Node

end EdgeDeletion
