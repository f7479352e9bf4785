/-
The plan of an index-aware delete.

For each edge the partition is scanned below the prefix of the edge.  The leading
lock placeholders go; if the current record follows, its index entries and the
record go; then all that is left below the prefix goes.  An entry of an index under
rebuild is not removed but deferred to the operation log.  An index that is locked
stops the plan, and so does a row that does not decode; a row without an image under
an index leaves the entry of that index alone.

A `Plan` is the list of its steps and the trace of its making, up to the failure that
stopped it, if any.  Plans are joined by `Plan.andThen`.

* `Plan.andThen_assoc`, `Plan.done_andThen`, `Plan.andThen_done` — joining is
  associative and `Plan.done` is neutral for it.
-/
import EdgeDeletion.Catalog
import EdgeDeletion.Delete.Event
import EdgeDeletion.OperationLog

namespace EdgeDeletion

universe u

/-- A change to one key, by its reason. -/
inductive Step where
  /-- Removes a lock placeholder. -/
  | lock (key : Bytes)
  /-- Removes an index entry. -/
  | entry (key : Bytes)
  /-- Defers the removal of an index entry. -/
  | deferral (key : Bytes)
  /-- Removes the current record of an edge. -/
  | record (key : Bytes)
  /-- Removes a key that follows the record below the prefix. -/
  | version (key : Bytes)
deriving DecidableEq

namespace Step

def isRecord : Step → Bool
  | .record _ => true
  | _ => false

def isEntry : Step → Bool
  | .entry _ => true
  | _ => false

def isDeferral : Step → Bool
  | .deferral _ => true
  | _ => false

end Step

/-- Steps and their trace, up to a failure. -/
structure Plan where
  steps : List Step
  trace : List Event
  error : Option DeleteError

namespace Plan

def done : Plan := ⟨[], [], none⟩

def ofSteps (steps : List Step) : Plan := ⟨steps, [], none⟩

/-- Only leaves events. -/
def note (trace : List Event) : Plan := ⟨[], trace, none⟩

def fail (error : DeleteError) : Plan := ⟨[], [], some error⟩

/-- Goes on with a second plan unless the first one failed. -/
def andThen (p q : Plan) : Plan :=
  match p.error with
  | some _ => p
  | none => ⟨p.steps ++ q.steps, p.trace ++ q.trace, q.error⟩

def sequence : List Plan → Plan
  | [] => done
  | p :: ps => p.andThen (sequence ps)

theorem done_andThen (p : Plan) : done.andThen p = p := rfl

theorem andThen_done (p : Plan) : p.andThen done = p := by
  obtain ⟨steps, trace, error⟩ := p
  cases error <;> simp [andThen, done]

theorem andThen_assoc (p q r : Plan) : (p.andThen q).andThen r = p.andThen (q.andThen r) := by
  obtain ⟨steps, trace, error⟩ := p
  obtain ⟨steps', trace', error'⟩ := q
  cases error <;> cases error' <;> simp [andThen, List.append_assoc]

end Plan

/-- What a plan is made from, the store apart. -/
structure Scene where
  catalog : Catalog
  markers : IndexMarkers
  indexes : List Index
  place : Place
  vidLen : Nat
  /-- The number of writes in flight, the one that is planned included. -/
  inflight : Nat

namespace Scene

/-- Handles the entry of an edge in an index. -/
def entryPlan (s : Scene) (edge : Edge) (row : Row) (index : Index) : Plan :=
  match Image.ofRow row index.columns with
  | .error cause => .note [.log (.valuesSkipped s.place.part index.name cause)]
  | .ok image =>
    let key := Key.entry s.vidLen s.place.part index.id edge image
    let state := s.markers.state s.place index.id
    (Plan.note [.call (.indexState s.place index.id state s.inflight)]).andThen
      (match state with
      | .locked => .fail (.indexLocked index.id index.name)
      | .rebuilding => .ofSteps [.deferral key]
      | .normal => .ofSteps [.entry key])

/-- Handles the index entries of a stored record.  The row is only read if an index is on the
type of the edge. -/
def entriesPlan (s : Scene) (edge : Edge) (raw : Bytes) : Plan :=
  match s.indexes.filter fun i => i.edgeType == edge.type with
  | [] => .done
  | indexes =>
    (Plan.note [.call (.decode s.place.space edge.type raw)]).andThen
      (match s.catalog.decodeRow s.place.space edge.type raw with
      | .error source => .fail (.invalidRecord edge.type source)
      | .ok row => .sequence (indexes.map (s.entryPlan edge row)))

/-- Handles the keys below the prefix of an edge. -/
def keysPlan (s : Scene) (edge : Edge) (found : List (Bytes × Bytes)) : Plan :=
  let isLock (e : Bytes × Bytes) : Bool := Key.kind s.vidLen e.1 == .lock
  let locks := (found.takeWhile isLock).map fun e => Step.lock e.1
  let versions (es : List (Bytes × Bytes)) : Plan := .ofSteps (es.map fun e => .version e.1)
  (Plan.ofSteps locks).andThen
    (match found.dropWhile isLock with
    | [] => .done
    | (key, raw) :: rest =>
      if Key.kind s.vidLen key = .record then
        (s.entriesPlan edge raw).andThen ((Plan.ofSteps [.record key]).andThen (versions rest))
      else versions ((key, raw) :: rest))

/-- The failure of an edge whose vertices do not have the width of the space. -/
def widthError? (vidLen : Nat) (edge : Edge) : Option DeleteError :=
  if edge.hasWidth vidLen then none
  else some (.invalidWidth vidLen edge.src.length edge.dst.length)

def edgePlan {τ : Type u} (s : Scene) (store : Store τ) (edge : Edge) : Store τ × Plan :=
  match widthError? s.vidLen edge with
  | some e => (store, .fail e)
  | none =>
    let start := Key.edgePrefix s.vidLen s.place.part edge
    let (store, found) := store.scan s.place start
    (store, (Plan.note [.call (.scan s.place start)]).andThen
      (match found with
      | .error code => .fail (.store code)
      | .ok found => s.keysPlan edge found))

/-- Handles edges in order, up to the first that fails. -/
def plan {τ : Type u} (s : Scene) (store : Store τ) : List Edge → Store τ × Plan
  | [] => (store, .done)
  | edge :: edges =>
    let (store, p) := s.edgePlan store edge
    if p.error.isSome then (store, p)
    else
      let (store, q) := s.plan store edges
      (store, p.andThen q)

end Scene

/-- The operations of steps.  Each deferral takes the next sequence number. -/
def Step.toOps (part : PartId) : Sequencer → List Step → List BatchOp × Sequencer
  | q, [] => ([], q)
  | q, step :: steps =>
    match step with
    | .deferral key =>
      let (sequence, q) := q.draw
      let (ops, q) := toOps part q steps
      (.put (Key.deferral part sequence) key :: ops, q)
    | .lock key | .entry key | .record key | .version key =>
      let (ops, q) := toOps part q steps
      (.remove key :: ops, q)

end EdgeDeletion
