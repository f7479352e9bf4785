/-
Runs of a node under its driver.

A driver sends requests, holds writes back and lets them go, sets up faults, changes the
catalog, the markers and the stored entries, submits writes of its own, and holds edges
and in-flight counts itself.  A `Session` is a node with what its driver has asked for
and holds; a run is any list of actions from a fresh node.

Completions are inline: an action is over when the submitters of all writes that it had
applied have been told.  The one action that stands for a runtime is `deleteDeferred`,
which applies the writes of its request after the last partition was worked on.
-/
import EdgeDeletion.Delete.Node

namespace EdgeDeletion

/-- A node with what its driver has asked for and holds. -/
structure Session where
  node : Node
  /-- The requests, by their numbers. -/
  asked : List DeleteRequest
  /-- The edges that the driver has claimed, claim by claim. -/
  guards : List (List EdgeId)
  /-- How many things the driver counts as in flight. -/
  tracked : Nat

/-- What a driver can do. -/
inductive Action where
  | delete (r : DeleteRequest)
  /-- The writes of a request are applied only after all its partitions were worked on. -/
  | deleteDeferred (r : DeleteRequest)
  | pause
  | resume
  | failWrite (place : Place) (code : StoreCode)
  | failScan (place : Place) (code : StoreCode)
  /-- The next write of a request gets lost. -/
  | loseWrite
  | setMarkers (markers : IndexMarkers)
  | setCatalog (catalog : Catalog)
  | setIndexCatalog (catalog : Option Catalog)
  | setTime (now : UInt64)
  | addPart (place : Place)
  | put (place : Place) (key value : Bytes)
  /-- Submits a write that belongs to no request. -/
  | submit (name : String) (place : Place) (change : Change)
  | lock (edges : List EdgeId)
  /-- Gives up a claim, by its position. -/
  | unlock (i : Nat)
  | track
  /-- Gives up a count, if there is one. -/
  | untrack

namespace Session

/-- A fresh node whose driver has done nothing. -/
def start (options : Options) (catalog : Catalog) (clock : Nat → UInt64) : Session :=
  ⟨.start options catalog clock, [], [], 0⟩

/-- Does one thing. -/
def act (s : Session) : Action → Session
  | .delete r => { s with node := (s.node.process r).2, asked := s.asked ++ [r] }
  | .deleteDeferred r => { s with node := (s.node.processDeferred r).2, asked := s.asked ++ [r] }
  | .pause => { s with node := s.node.pause }
  | .resume => { s with node := s.node.resume.2 }
  | .failWrite place code =>
    { s with node := { s.node with store := s.node.store.failWrite place code } }
  | .failScan place code =>
    { s with node := { s.node with store := s.node.store.failScan place code } }
  | .loseWrite => { s with node := { s.node with losesNext := true } }
  | .setMarkers markers => { s with node := { s.node with markers := markers } }
  | .setCatalog catalog => { s with node := { s.node with catalog := catalog } }
  | .setIndexCatalog catalog => { s with node := { s.node with indexCatalog := catalog } }
  | .setTime now => { s with node := { s.node with now := now } }
  | .addPart place => { s with node := { s.node with store := s.node.store.addPart place } }
  | .put place key value =>
    match s.node.store.put place key value with
    | .ok store => { s with node := { s.node with store := store } }
    | .error _ => s
  | .submit name place change => { s with node := s.node.submit name place change }
  | .lock edges =>
    match s.node.claim edges with
    | .ok (claimed, node) => { s with node := node, guards := s.guards ++ [claimed] }
    | .error _ => s
  | .unlock i =>
    match s.guards[i]? with
    | some claimed =>
      { s with node := s.node.release claimed, guards := s.guards.eraseIdx i }
    | none => s
  | .track => { s with node := s.node.track, tracked := s.tracked + 1 }
  | .untrack =>
    if s.tracked = 0 then s else { s with node := s.node.untrack, tracked := s.tracked - 1 }

/-- Does one thing after the other. -/
def run (s : Session) (actions : List Action) : Session := actions.foldl act s

end Session

end EdgeDeletion
