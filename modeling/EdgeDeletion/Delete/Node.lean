/-
The storage node that works on delete requests.

A request goes through its partitions in ascending order.  In a space without indexes
the record keys of a partition are removed directly.  Otherwise the removals are
planned, the edges of the partition are claimed, and the batch is submitted; edges
stay claimed and the write stays in flight until the store reports the outcome.  Each
partition reports once, and the answer to a request is complete when all have.

The node is a value, and every operation gives the next one.  What happens is
appended to the trace, and its signals are added to the counters, if there are any.

Writes are completed inline: when the store is done with a write, its submitter is told
before anything else happens.  A runtime, on which completions run as tasks of their
own after all partitions of a request were worked on, is modelled by `processDeferred`
and by nothing else.

* `process` — takes a request and gives its number;
* `poll` — the answer to a request, as far as it is known;
* `submit`, `pause`, `resume` — writes of others, and when writes are applied.
-/
import EdgeDeletion.Delete.Plan
import EdgeDeletion.Delete.Request
import EdgeDeletion.LockTable
import EdgeDeletion.Options

namespace EdgeDeletion

/-- What an index-aware write keeps until it is completed. -/
structure Hold where
  claimed : List EdgeId
  /-- The index entries that it removes. -/
  entries : Nat

/-- The submitter of a write. -/
inductive Submitter where
  /-- Somebody outside, by a name of his choice. -/
  | outside (name : String)
  /-- A partition of a request, which removes a number of edges. -/
  | partition (request : Nat) (part : PartId) (edges : Nat) (hold : Option Hold)

/-- Whether a submitter is a partition of a request. -/
def Submitter.isOf (request : Nat) : Submitter → Bool
  | .outside _ => false
  | .partition r .. => r == request

/-- A storage node. -/
structure Node where
  options : Options
  catalog : Catalog
  /-- Where indexes are looked up, if not in the catalog. -/
  indexCatalog : Option Catalog
  markers : IndexMarkers
  store : Store Submitter
  locks : LockTable EdgeId
  /-- The index-aware writes under way, and whatever else is counted with them. -/
  inflight : Nat
  sequencer : Sequencer
  /-- The time in microseconds. -/
  now : UInt64
  /-- The sums of the signals, if somebody asked for them. -/
  counters : Option Counters
  /-- The requests, by their numbers. -/
  requests : List Collector
  /-- The next write of a request gets lost on its way to the store. -/
  losesNext : Bool
  trace : List Event

/-- What is known of the answer to a request. -/
inductive Answer where
  /-- A write of the request is still held back. -/
  | waiting
  | ready (response : DeleteResponse)
  /-- Some partition will never report. -/
  | dropped

namespace Node

/-- A node without spaces, partitions and requests. -/
def start (options : Options) (catalog : Catalog) (clock : Nat → UInt64) : Node where
  options := options
  catalog := catalog
  indexCatalog := none
  markers := .empty
  store := .empty
  locks := .empty
  inflight := 0
  sequencer := .start clock
  now := 0
  counters := none
  requests := []
  losesNext := false
  trace := []

/-! ### The trace -/

/-- Appends an event to the trace and counts it if it is a signal. -/
def emit (n : Node) (e : Event) : Node :=
  { n with
    trace := n.trace ++ [e]
    counters :=
      match e with
      | .signal s => n.counters.map fun c => c.record s
      | _ => n.counters }

def emitAll (n : Node) (es : List Event) : Node := es.foldl emit n

/-! ### In-flight writes and locks -/

def track (n : Node) : Node := { n with inflight := n.inflight + 1 }

def untrack (n : Node) : Node := { n with inflight := n.inflight - 1 }

/-- Claims edges for somebody outside. -/
def claim (n : Node) (edges : List EdgeId) : Except EdgeId (List EdgeId × Node) :=
  (n.locks.claim edges).map fun p => (p.1, { n with locks := p.2 })

def release (n : Node) (edges : List EdgeId) : Node := { n with locks := n.locks.release edges }

/-- Gives up what an index-aware write keeps. -/
def releaseHold (n : Node) : Option Hold → Node
  | none => n
  | some hold => (n.release hold.claimed).untrack

/-! ### Reports and completed writes -/

/-- Passes the report of a partition on to its request. -/
def report (n : Node) (request : Nat) (part : PartId) (code : ResultCode) : Node :=
  match n.requests[request]? with
  | none => n
  | some c =>
    let (c, events) := c.report n.now part code
    { n with requests := n.requests.set request c }.emitAll events

/-- Tells the submitter of a write about its outcome. -/
def complete (n : Node) (c : Completion Submitter) : Node :=
  let n :=
    match c.rejected with
    | some cause => n.emit (.log (.batchRejected cause))
    | none => n
  match c.token with
  | .outside name => n.emit (.written name c.result)
  | .partition request part edges hold =>
    let n := n.releaseHold hold
    match c.result with
    | .ok () =>
      let n := n.emit (.signal (.edgesDeleted (UInt64.ofNat edges)))
      let n :=
        match hold with
        | some hold => n.emit (.signal (.entriesRemoved (UInt64.ofNat hold.entries)))
        | none => n
      n.report request part .succeeded
    | .error code =>
      let e := DeleteError.store code
      (n.emit (.log (.storeFailed part e))).report request part e.code

def completeAll (n : Node) (cs : List (Completion Submitter)) : Node := cs.foldl complete n

/-- Submits a write of somebody outside. -/
def submit (n : Node) (name : String) (place : Place) (change : Change) : Node :=
  let (store, done) := n.store.submit ⟨place, change, .outside name⟩
  { n with store := store }.completeAll done

/-- Submits the write of a partition.  A write that gets lost gives up what it keeps, and its
partition never reports. -/
def submitPart (n : Node) (place : Place) (change : Change) (request edges : Nat)
    (hold : Option Hold) : Node :=
  if n.losesNext then { n with losesNext := false }.releaseHold hold
  else
    let (store, done) :=
      n.store.submit ⟨place, change, .partition request place.part edges hold⟩
    { n with store := store }.completeAll done

/-- Holds writes back from now on. -/
def pause (n : Node) : Node := { n with store := n.store.pause }

/-- Applies a write and tells its submitter about the outcome. -/
def finish (n : Node) (w : Write Submitter) : Node :=
  let (store, done) := n.store.apply w
  { n with store := store }.complete done

/-- Holds no writes back from now on.  Those held back are applied one after the other, and the
submitter of each is told before the next one is applied. -/
def resume (n : Node) : Nat × Node :=
  let held := n.store.heldWrites
  (held.length, held.foldl finish { n with store := { n.store with held := none } })

/-! ### Requests -/

/-- Removes the records of edges directly. -/
def deletePlain (n : Node) (request : Nat) (place : Place) (vidLen : Nat) (edges : List Edge) :
    Node :=
  match edges.findSome? (Scene.widthError? vidLen) with
  | some e => (n.emit (.log (.invalidWidth place e))).report request place.part e.code
  | none =>
    let keys := edges.map (Key.record vidLen place.part)
    let n := n.emit (.call (.remove place keys n.locks.size n.inflight))
    n.submitPart place (.remove keys) request keys.length none

/-- Removes edges with all that belongs to them and their index entries.  The partition is counted
as in flight before any index state is looked up, and if it is refused, until it has reported. -/
def deleteIndexed (n : Node) (request : Nat) (place : Place) (vidLen : Nat)
    (indexes : List Index) (edges : List Edge) : Node :=
  let n := n.track
  let scene : Scene := ⟨n.catalog, n.markers, indexes, place, vidLen, n.inflight⟩
  let (store, plan) := scene.plan n.store edges
  let (ops, sequencer) := Step.toOps place.part n.sequencer plan.steps
  let n := { n with store := store, sequencer := sequencer }.emitAll plan.trace
  match plan.error with
  | some e => ((n.emit (.log (.batchFailed place e))).report request place.part e.code).untrack
  | none =>
    match n.claim (edges.map fun e => ⟨place, e⟩) with
    | .error edge =>
      let n := n.emit (.signal .lockConflict)
      let shown := if n.options.logConflictKeys then some edge else none
      let n := n.emit (.log (.lockConflict place.part shown))
      (n.report request place.part (DeleteError.conflict edge).code).untrack
    | .ok (claimed, n) =>
      let deferred := plan.steps.countP Step.isDeferral
      let n := n.emit (.signal (.removalsDeferred (UInt64.ofNat deferred)))
      let payload := Batch.encode ops
      let n := n.emit (.call (.batch place payload n.locks.size n.inflight))
      n.submitPart place (.batch payload) request (plan.steps.countP Step.isRecord)
        (some ⟨claimed, plan.steps.countP Step.isEntry⟩)

def failAll (n : Node) (request : Nat) (parts : List PartId) (code : ResultCode) : Node :=
  parts.foldl (fun n part => n.report request part code) n

/-- Works on the partitions of a request whose number is given. -/
def dispatch (n : Node) (request : Nat) (r : DeleteRequest) : Node :=
  let n := n.emit (.call (.vidLen r.space))
  match n.catalog.vidLen r.space with
  | .error source =>
    let e := DeleteError.widthUnavailable r.space source.toStorageError
    (n.emit (.log (.widthUnavailable r.space e))).failAll request r.parts.keys e.code
  | .ok vidLen =>
    let n := n.emit (.call (.indexes r.space))
    match (n.indexCatalog.getD n.catalog).edgeIndexes r.space with
    | .error source =>
      let e := DeleteError.indexesUnavailable r.space source.toStorageError
      (n.emit (.log (.indexesUnavailable r.space e))).failAll request r.parts.keys e.code
    | .ok indexes =>
      r.parts.entries.foldl
        (fun n (part, edges) =>
          if indexes.isEmpty then n.deletePlain request ⟨r.space, part⟩ vidLen edges
          else n.deleteIndexed request ⟨r.space, part⟩ vidLen indexes edges)
        n

/-- Takes a request and gives its number. -/
def process (n : Node) (r : DeleteRequest) : Nat × Node :=
  let n := n.emit (.signal .call)
  let request := n.requests.length
  let (c, events) := Collector.start r.parts.size n.now
  let n := { n with requests := n.requests ++ [c] }.emitAll events
  (request, n.dispatch request r)

/-- Takes a request and applies its writes only after all partitions were worked on, as it goes on a
runtime.  A paused node goes on to hold them back. -/
def processDeferred (n : Node) (r : DeleteRequest) : Nat × Node :=
  if n.store.held.isSome then n.process r
  else
    let (request, n) := n.pause.process r
    (request, n.resume.2)

/-- The answer to a request, as far as it is known. -/
def poll (n : Node) (request : Nat) : Answer :=
  match n.requests[request]? with
  | none => .dropped
  | some c =>
    match c.response with
    | some response => .ready response
    | none =>
      if n.store.heldWrites.any fun w => w.token.isOf request then .waiting else .dropped

end Node

end EdgeDeletion
