/-
Both ways to delete edges agree where no index is concerned.

In a space without indexes the record keys are removed directly.  Otherwise the keys below
the prefixes are looked up, and what is found goes in a batch.  Where an edge has at most
its record there and no index is on its type, that comes to the same:

* `Scene.edgeSteps_sole` — the only step for such an edge is that its record goes, if it is
  stored;
* `Batch.decode_removals` — the batch of these steps is read back, as it is short enough;
* `paths_agree` — the partition has the same code and the same contents in the end.
-/
import EdgeDeletion.Proofs.BarePlans
import EdgeDeletion.Proofs.PartIsolation
import Mathlib.Algebra.GroupWithZero.Nat
import Mathlib.Algebra.Order.BigOperators.Group.List
import Mathlib.Algebra.Order.Group.Nat

namespace EdgeDeletion

/-! ### Edges without index entries -/

namespace Scene

variable {s : Scene} {edge : Edge} {c : Contents}

/-- Below the prefix of an edge there is at most its record. -/
def Sole (s : Scene) (c : Contents) (edge : Edge) : Prop :=
  ∀ k v, c.get? k = some v → Key.edgePrefix s.vidLen s.place.part edge <+: k →
    k = Key.record s.vidLen s.place.part edge

/-- A scan finds the record at most. -/
theorem found_sole (h : s.Sole c edge) :
    s.found c edge = ((c.get? (Key.record s.vidLen s.place.part edge)).map fun raw =>
      (Key.record s.vidLen s.place.part edge, raw)).toList := by
  have hall : ∀ k v, (k, v) ∈ s.found c edge →
      k = Key.record s.vidLen s.place.part edge ∧
        c.get? (Key.record s.vidLen s.place.part edge) = some v := by
    intro k v hmem
    obtain ⟨hv, hpre⟩ := s.mem_found.1 hmem
    obtain rfl := h k v hv hpre
    exact ⟨rfl, hv⟩
  cases hraw : c.get? (Key.record s.vidLen s.place.part edge) with
  | none =>
    refine List.eq_nil_iff_forall_not_mem.2 fun e hmem => ?_
    obtain ⟨-, hv⟩ := hall e.1 e.2 hmem
    rw [hraw] at hv
    exact absurd hv nofun
  | some raw =>
    have hmem : (Key.record s.vidLen s.place.part edge, raw) ∈ s.found c edge :=
      s.mem_found.2 ⟨hraw, Key.edgePrefix_prefix_record ..⟩
    have hord : (s.found c edge).Pairwise fun a b => KeyOrder.before a.1 b.1 = true :=
      Store.entriesFrom_ordered c _
    -- all that is found has the same key, and no key is found twice
    generalize s.found c edge = found at hall hmem hord
    match found, hmem with
    | [e], hmem => exact congrArg (· :: []) (List.mem_singleton.1 hmem).symm
    | e :: e' :: rest, _ =>
      have hbefore := (List.pairwise_cons.1 hord).1 e' (List.mem_cons_self ..)
      rw [(hall e.1 e.2 (by simp)).1, (hall e'.1 e'.2 (by simp)).1, KeyOrder.irrefl] at hbefore
      exact absurd hbefore nofun

/-- The plan for such an edge does not fail, and its only step is that the record goes. -/
theorem keysPlan_sole (h : s.Sole c edge) (hunindexed : ∀ i ∈ s.indexes, i.edgeType ≠ edge.type) :
    (s.keysPlan edge (s.found c edge)).error = none ∧
      s.edgeSteps c edge = if c.contains (Key.record s.vidLen s.place.part edge)
        then [.record (Key.record s.vidLen s.place.part edge)] else [] := by
  rw [edgeSteps, found_sole h, OrderedMap.contains]
  cases c.get? (Key.record s.vidLen s.place.part edge) with
  | none => exact ⟨rfl, rfl⟩
  | some raw =>
    have hkind := Key.kind_record s.vidLen s.place.part edge
    have hplan : s.keysPlan edge [(Key.record s.vidLen s.place.part edge, raw)]
        = .ofSteps [.record (Key.record s.vidLen s.place.part edge)] := by
      simp [keysPlan_of_unindexed hunindexed, bareSteps, hkind]
    simp only [Option.map_some, Option.toList_some, hplan]
    exact ⟨rfl, rfl⟩

/-- If edges have at most their records, where they have the width, only the width makes a plan
fail. -/
theorem edgesError_sole {edges : List Edge}
    (h : ∀ e ∈ edges, e.hasWidth s.vidLen = true → s.Sole c e)
    (hunindexed : ∀ i ∈ s.indexes, ∀ e ∈ edges, i.edgeType ≠ e.type) :
    edges.findSome? (s.edgeError (.ok c)) = edges.findSome? (widthError? s.vidLen) := by
  induction edges with
  | nil => rfl
  | cons e edges ih =>
    have hedge : s.edgeError (.ok c) e = widthError? s.vidLen e := by
      by_cases hwidth : e.hasWidth s.vidLen = true
      · have hnone := (keysPlan_sole (h e (List.mem_cons_self ..) hwidth)
          fun i hi => hunindexed i hi e (List.mem_cons_self ..)).1
        simp only [edgeError, hnone, Option.or_none]
      · exact edgeError_of_width (by simp [widthError?, hwidth]) _
    rw [List.findSome?_cons, List.findSome?_cons, hedge,
      ih (fun e he => h e (List.mem_cons_of_mem _ he))
        fun i hi e he => hunindexed i hi e (List.mem_cons_of_mem _ he)]

/-- The steps for such edges: the records that are stored go. -/
theorem edgeSteps_sole {edges : List Edge} (h : ∀ e ∈ edges, s.Sole c e)
    (hunindexed : ∀ i ∈ s.indexes, ∀ e ∈ edges, i.edgeType ≠ e.type) :
    edges.flatMap (s.edgeSteps c) =
      ((edges.map (Key.record s.vidLen s.place.part)).filter c.contains).map .record := by
  induction edges with
  | nil => rfl
  | cons e edges ih =>
    have hstep := (keysPlan_sole (h e (List.mem_cons_self ..))
      fun i hi => hunindexed i hi e (List.mem_cons_self ..)).2
    rw [List.flatMap_cons, hstep, ih (fun e he => h e (List.mem_cons_of_mem _ he))
      fun i hi e he => hunindexed i hi e (List.mem_cons_of_mem _ he), List.map_cons,
      List.filter_cons]
    cases c.contains (Key.record s.vidLen s.place.part e) <;> rfl

end Scene

namespace Step

theorem removedKeys_map_record (keys : List Bytes) : removedKeys (keys.map .record) = keys := by
  rw [removedKeys, List.filterMap_map]
  exact List.filterMap_some

theorem deferredKeys_map_record (keys : List Bytes) : deferredKeys (keys.map .record) = [] := by
  rw [deferredKeys, List.filterMap_map]
  exact List.filterMap_eq_nil_iff.2 fun _ _ => rfl

end Step

/-- It makes no difference whether keys go that are not there. -/
theorem Contents.without_filter_contains (c : Contents) (keys : List Bytes) :
    c.without (keys.filter c.contains) = c.without keys := by
  refine OrderedMap.ext fun k => ?_
  rw [get?_without, get?_without]
  by_cases hk : k ∈ keys
  · cases hv : c.get? k with
    | none => simp
    | some v =>
      have hmem : k ∈ keys.filter c.contains :=
        List.mem_filter.2 ⟨hk, by simp [OrderedMap.contains, hv]⟩
      rw [if_pos hmem, if_pos hk]
  · rw [if_neg hk, if_neg fun hmem => hk (List.mem_filter.1 hmem).1]

/-! ### The size of a batch -/

/-- How many bytes of a batch it takes at most to remove the record of an edge.  An edge takes more
than that in a memory with addresses of 64 bits. -/
def Edge.weight (e : Edge) : Nat := e.src.length + e.dst.length + 29

theorem Key.length_record {vidLen : Nat} {e : Edge} (h : e.hasWidth vidLen = true) (part : PartId) :
    (Key.record vidLen part e).length + 11 = e.weight := by
  obtain ⟨hsrc, hdst⟩ := Edge.hasWidth_iff.1 h
  rw [Key.record, List.length_append, Key.length_edgePrefix, Key.prefixLength, Edge.weight, hsrc,
    hdst, List.length_singleton]
  omega

namespace Batch

/-- A batch of removals takes eleven bytes, and eleven more for each key. -/
theorem length_encode_removals (keys : List Bytes) :
    (encode (keys.map .remove)).length ≤ 11 + (keys.map fun k => k.length + 11).sum := by
  have hops : ((keys.map BatchOp.remove).flatMap encodeOp).length
      ≤ (keys.map fun k => k.length + 11).sum := by
    induction keys with
    | nil => exact Nat.le_refl _
    | cons key keys ih =>
      have hdigits := Varint.length_encode_le (UInt64.ofNat key.length)
      simp only [List.map_cons, List.flatMap_cons, encodeOp, encodeBytes, List.length_append,
        List.length_cons, List.sum_cons]
      omega
  have hdigits := Varint.length_encode_le (UInt64.ofNat (keys.map BatchOp.remove).length)
  rw [encode, List.length_cons, List.length_append]
  omega

/-- Record keys of edges that are not too many are read back from a batch. -/
theorem decode_removals {vidLen : Nat} {part : PartId} {edges : List Edge} {keys : List Bytes}
    (hwidth : ∀ e ∈ edges, e.hasWidth vidLen = true)
    (hfits : 11 + (edges.map Edge.weight).sum < UInt64.size)
    (hkeys : keys.Sublist (edges.map (Key.record vidLen part))) :
    decode (encode (keys.map .remove)) = .ok (keys.map .remove) := by
  have hweight : (edges.map (Key.record vidLen part)).map (fun k => k.length + 11)
      = edges.map Edge.weight := by
    rw [List.map_map]
    exact List.map_congr_left fun e he => Key.length_record (hwidth e he) part
  have hsum : (keys.map fun k => k.length + 11).sum ≤ (edges.map Edge.weight).sum := by
    rw [← hweight]
    exact (hkeys.map _).sum_le_sum fun _ _ => Nat.zero_le _
  have hlen := length_encode_removals keys
  exact decode_encode_of_lt (by omega)

end Batch

/-! ### Turns on both ways -/

namespace Node

open Store (AgreeAt)

variable {n m : Node} {t : Turn} {place : Place} {edges : List Edge} {c : Contents}

/-- A partition is here with some contents, no failure is set up for it, and none of the edges is
claimed there. -/
structure Calm (n : Node) (place : Place) (edges : List Edge) (c : Contents) : Prop where
  contents : n.store.contents place = .ok c
  writes : n.store.writeFaults.get? place = none
  scans : n.store.scanFaults.get? place = none
  free : ∀ e ∈ edges, n.locks.isLocked ⟨place, e⟩ = false

theorem Calm.of_agree (h : n.Calm place edges c) (hstore : AgreeAt place n.store m.store)
    (hlocks : m.locks = n.locks) : m.Calm place edges c where
  contents := hstore.contents.symm.trans h.contents
  writes := hstore.writeFault.symm.trans h.writes
  scans := hstore.scanFault.symm.trans h.scans
  free := hlocks ▸ h.free

/-- Edges that are free can be claimed. -/
theorem exists_claim (h : ∀ e ∈ t.edges, n.locks.isLocked ⟨t.place, e⟩ = false) :
    ∃ p, n.locks.claim t.ids = .ok p := by
  refine (LockTable.claim_eq_ok_iff ..).2 fun id hid => ?_
  obtain ⟨e, he, rfl⟩ := List.mem_map.1 (LockTable.mem_distinct.1 hid)
  exact h e he

/-- In a space without indexes, a turn whose edges have the width comes to its write. -/
theorem verdict_plain (hindexes : t.indexes.isEmpty = true)
    (hwidth : t.edges.findSome? (Scene.widthError? t.vidLen) = none) : n.verdict t
      = .write (.remove (t.edges.map (Key.record t.vidLen t.place.part))) t.edges.length none := by
  rw [verdict, if_pos hindexes, hwidth]

/-- A write of a turn that can be read succeeds, unless its partition is missing or has a failure
ahead. -/
theorem ends_of_readable (hready : n.Ready t) (hc : n.store.contents t.place = .ok c)
    (hwrites : n.store.writeFaults.get? t.place = none) {change : Change} {edges : Nat}
    {hold : Option Hold} {ops : List BatchOp} (hverdict : n.verdict t = .write change edges hold)
    (hops : Store.opsOf change = .ok ops) :
    n.Ends t .succeeded (n.removedIn t) (n.deferredIn t) := by
  obtain ⟨faults, k, hplanned⟩ := n.planned_eq t
  have hfault : (n.planned t).store.counted.writeFaults.get? t.place = none := by
    rw [hplanned]
    exact hwrites
  have hparts : (n.planned t).store.counted.parts = n.store.parts := n.planned_parts t
  have hcontents : (n.planned t).store.counted.contents t.place = .ok c :=
    (congrFun (Store.contents_congr hparts) t.place).trans hc
  have hresult :
      ((n.planned t).store.counted.apply (t.write change edges hold)).2.result = .ok () := by
    rw [Store.apply_of_batch hfault hcontents hops]
  exact Node.ends_of_write hready hverdict hresult

/-- A turn whose edges have the width submits one write, and the records are gone. -/
theorem ends_plain (hready : n.Ready t) (hindexes : t.indexes.isEmpty = true)
    (hwidth : t.edges.findSome? (Scene.widthError? t.vidLen) = none)
    (hc : n.store.contents t.place = .ok c) (hfault : n.store.writeFaults.get? t.place = none) :
    n.Ends t .succeeded (t.edges.map (Key.record t.vidLen t.place.part)) [] ∧
      (n.work t).store.submissions = n.store.submissions + 1 := by
  have hverdict := verdict_plain (n := n) hindexes hwidth
  have hends := ends_of_readable hready hc hfault hverdict rfl
  rw [removedIn, deferredIn, if_pos hindexes, if_pos hindexes] at hends
  refine ⟨hends, ?_⟩
  rw [store_work hready.held, hverdict]
  simp only [hready.keeps, Bool.false_eq_true, if_false]
  exact (Store.apply_submissions ..).trans (congrArg (· + 1) (n.planned_submissions t))

/-- A write of a turn that can be read succeeds there. -/
theorem Calm.ends_of_write (h : n.Calm t.place t.edges c) (hready : n.Ready t) {change : Change}
    {edges : Nat} {hold : Option Hold} {ops : List BatchOp}
    (hverdict : n.verdict t = .write change edges hold) (hops : Store.opsOf change = .ok ops) :
    n.Ends t .succeeded (n.removedIn t) (n.deferredIn t) :=
  ends_of_readable hready h.contents h.writes hverdict hops

/-- In a space without indexes, a turn whose edges have the width removes the keys of all their
records. -/
theorem Calm.ends_plain (h : n.Calm t.place t.edges c) (hready : n.Ready t)
    (hindexes : t.indexes.isEmpty = true)
    (hwidth : t.edges.findSome? (Scene.widthError? t.vidLen) = none) :
    n.Ends t .succeeded (t.edges.map (Key.record t.vidLen t.place.part)) [] :=
  (Node.ends_plain hready hindexes hwidth h.contents h.writes).1

/-- There are indexes but none on the type of an edge of the turn, and below the prefix of an edge
there is at most its record. -/
structure Unindexed (n : Node) (t : Turn) (c : Contents) : Prop where
  indexed : t.indexes.isEmpty = false
  types : ∀ i ∈ t.indexes, ∀ e ∈ t.edges, i.edgeType ≠ e.type
  sole : ∀ e ∈ t.edges, e.hasWidth t.vidLen = true → (n.scene t).Sole c e

/-- Then the plan fails only for an edge that has not the width. -/
theorem Unindexed.planOf_error (hun : n.Unindexed t c) (h : n.Calm t.place t.edges c) :
    (n.planOf t).error = t.edges.findSome? (Scene.widthError? t.vidLen) := by
  have herror : (n.planOf t).error
      = t.edges.findSome? ((n.scene t).edgeError (n.store.contents t.place)) :=
    (Scene.plan_error (s := n.scene t) h.scans t.edges).2
  rw [herror, h.contents]
  exact Scene.edgesError_sole hun.sole hun.types

/-- A turn whose edges have the width then removes the keys of those records that are stored. -/
theorem Unindexed.ends (hun : n.Unindexed t c) (h : n.Calm t.place t.edges c) (hready : n.Ready t)
    (hwidth : t.edges.findSome? (Scene.widthError? t.vidLen) = none)
    (hfits : 11 + (t.edges.map Edge.weight).sum < UInt64.size) :
    n.Ends t .succeeded
      ((t.edges.map (Key.record t.vidLen t.place.part)).filter c.contains) [] := by
  have herror := (hun.planOf_error h).trans hwidth
  obtain ⟨hplan, hsteps⟩ := Scene.plan_stored herror
  have hwide : ∀ e ∈ t.edges, e.hasWidth t.vidLen = true := fun e he => (hplan e he).1
  -- the steps of the plan, which are made from the contents of the partition
  have hstored : n.stepsOf t c
      = ((t.edges.map (Key.record t.vidLen t.place.part)).filter c.contains).map .record :=
    Scene.edgeSteps_sole (fun e he => hun.sole e he (hwide e he)) hun.types
  have hplanned : (n.planOf t).steps
      = ((t.edges.map (Key.record t.vidLen t.place.part)).filter c.contains).map .record := by
    have hc : n.store.stored (n.scene t).place = c := Store.stored_of_contents h.contents
    rw [hc] at hsteps
    exact hsteps.trans hstored
  -- the edges are free, so the turn gets to its write, and the store can read the payload
  obtain ⟨p, hclaim⟩ := exists_claim h.free
  obtain ⟨edges, hold, hverdict⟩ := verdict_of_claim hun.indexed herror hclaim
  have hops : Store.opsOf (.batch (Batch.encode (n.opsOf t).1)) = .ok
      (((t.edges.map (Key.record t.vidLen t.place.part)).filter c.contains).map .remove) := by
    rw [opsOf, hplanned, Step.toOps_of_removals (List.forall_mem_map.2 fun _ _ => rfl),
      Step.removedKeys_map_record]
    exact Batch.decode_removals hwide hfits List.filter_sublist
  have hends := h.ends_of_write hready hverdict hops
  rwa [removedIn_of_contents hun.indexed h.contents, deferredIn_of_contents hun.indexed h.contents,
    hstored, Step.removedKeys_map_record, Step.deferredKeys_map_record] at hends

/-- Turns on both ways end with the same code, and what they remove comes to the same. -/
theorem ends_both {t' : Turn} (hn : n.Ready t) (hm : m.Ready t') (hplace : t'.place = t.place)
    (hvidLen : t'.vidLen = t.vidLen) (hedges : t'.edges = t.edges)
    (hcalm : n.Calm t.place t.edges c) (hcalm' : m.Calm t'.place t'.edges c)
    (hindexes : t.indexes.isEmpty = true) (hun : m.Unindexed t' c)
    (hfits : 11 + (t.edges.map Edge.weight).sum < UInt64.size) :
    ∃ code removed removed', n.Ends t code removed [] ∧ m.Ends t' code removed' [] ∧
      c.without removed = c.without removed' := by
  have herror := hun.planOf_error hcalm'
  -- neither way can fail but for the first edge that has not the width
  cases hwidth : t.edges.findSome? (Scene.widthError? t.vidLen) with
  | some e =>
    rw [hvidLen, hedges, hwidth] at herror
    have hverdict : n.verdict t = .refused e := by rw [verdict, if_pos hindexes, hwidth]
    have hverdict' : m.verdict t' = .refused e := by simp [verdict, hun.indexed, herror]
    exact ⟨e.code, [], [], ends_of_refused hn hverdict, ends_of_refused hm hverdict', rfl⟩
  | none =>
    have hends' := hun.ends hcalm' hm (by rw [hvidLen, hedges, hwidth]) (by rwa [hedges])
    rw [hvidLen, hedges, hplace] at hends'
    exact ⟨.succeeded, _, _, hcalm.ends_plain hn hindexes hwidth, hends',
      (c.without_filter_contains _).symm⟩

/-! ### Requests on both ways -/

variable {r : DeleteRequest} {part : PartId}

/-- A node that looks indexes up in a given catalog. -/
def lookingIn (n : Node) (catalog : Catalog) : Node := { n with indexCatalog := some catalog }

/-- A calm partition has its turn on a node that is ready, and it is calm until then. -/
theorem Calm.atTurn {vidLen : Nat} {indexes : List Index} (hcalm : n.Calm ⟨r.space, part⟩ edges c)
    (hheld : n.store.held = none) (hkeeps : n.losesNext = false)
    (hvidLen : n.catalog.vidLen r.space = .ok vidLen)
    (hindexes : (n.indexCatalog.getD n.catalog).edgeIndexes r.space = .ok indexes)
    (hpart : (part, edges) ∈ r.parts.entries) :
    ∃ m, AtTurn n r ⟨n.requests.length, ⟨r.space, part⟩, vidLen, indexes, edges⟩ m ∧
      m.Ready ⟨n.requests.length, ⟨r.space, part⟩, vidLen, indexes, edges⟩ ∧
      m.Calm ⟨r.space, part⟩ edges c := by
  obtain ⟨ts, hturns⟩ := exists_turns hvidLen hindexes
  obtain ⟨_, _, hvidLen', hindexes', -, -, hat⟩ := atTurn_of_mem hheld hturns hpart
  obtain rfl := Except.ok.inj (hvidLen.symm.trans hvidLen')
  obtain rfl := Except.ok.inj (hindexes.symm.trans hindexes')
  obtain ⟨hlocks, hlost, hagree⟩ := agree_reached hheld hkeeps hturns part
  exact ⟨_, hat, ⟨hat.held, hlost, hat.listed, hat.silent⟩, hcalm.of_agree hagree hlocks⟩

/-- Where the turn of a calm partition ends without lines in the log, its keys are removed. -/
theorem AtTurn.contents_of_ends (hat : AtTurn n r t m) (hplace : t.place = ⟨r.space, part⟩)
    (hc : n.store.contents ⟨r.space, part⟩ = .ok c) {code : ResultCode} {removed : List Bytes}
    (hends : m.Ends t code removed []) :
    (n.process r).2.store.contents ⟨r.space, part⟩ = .ok (c.without removed) := by
  have hafter := (leaves_of_ends hat hplace hends).contents hc
  simpa using hafter

/-- **Both ways to delete agree where no index is concerned.**  A partition is here without failures
ahead, none of its requested edges is claimed, and each of them has at most its record below its
prefix.  Then the request comes to the same code and the same contents of the partition, whether
there are no indexes in the space or some, none of which is on the type of a requested edge.  The
edges may be any list that fits into memory, and the rows may be any bytes. -/
theorem paths_agree {n : Node} {r : DeleteRequest} {part : PartId} {edges : List Edge}
    {c : Contents} {plain indexed : Catalog} {indexes : List Index}
    (hheld : n.store.held = none) (hkeeps : n.losesNext = false)
    (hpart : (part, edges) ∈ r.parts.entries)
    (hcalm : n.Calm ⟨r.space, part⟩ edges c)
    (hsole : ∀ vidLen, n.catalog.vidLen r.space = .ok vidLen → ∀ e ∈ edges,
      e.hasWidth vidLen = true → ∀ k v, c.get? k = some v →
        Key.edgePrefix vidLen part e <+: k → k = Key.record vidLen part e)
    (hfits : 11 + (edges.map Edge.weight).sum < UInt64.size)
    (hplain : plain.edgeIndexes r.space = .ok [])
    (hindexed : indexed.edgeIndexes r.space = .ok indexes) (hsome : indexes ≠ [])
    (htypes : ∀ i ∈ indexes, ∀ e ∈ edges, i.edgeType ≠ e.type) :
    ∃ code c',
      ((n.lookingIn plain).process r).2.codeOf? n.requests.length part = some code ∧
      ((n.lookingIn indexed).process r).2.codeOf? n.requests.length part = some code ∧
      ((n.lookingIn plain).process r).2.store.contents ⟨r.space, part⟩ = .ok c' ∧
      ((n.lookingIn indexed).process r).2.store.contents ⟨r.space, part⟩ = .ok c' := by
  cases hvidLen : n.catalog.vidLen r.space with
  | error source =>
    -- the request fails as a whole, before any index is looked up
    have hfail : ∀ catalog, (n.lookingIn catalog).turns r
        = .error (.widthUnavailable r.space source.toStorageError) := by
      intro catalog
      have hvidLen' : (n.lookingIn catalog).catalog.vidLen r.space = .error source := hvidLen
      rw [turns, hvidLen']
    have hnamed : part ∈ r.parts.keys := List.mem_map_of_mem hpart
    refine ⟨_, c, codeOf?_process_of_error (hfail plain) hnamed,
      codeOf?_process_of_error (hfail indexed) hnamed, ?_, ?_⟩
    · rw [(process_of_error (hfail plain)).1]
      exact hcalm.contents
    · rw [(process_of_error (hfail indexed)).1]
      exact hcalm.contents
  | ok vidLen =>
    obtain ⟨m, hat, hready, hcalm₁⟩ := Calm.atTurn (n := n.lookingIn plain)
      ⟨hcalm.contents, hcalm.writes, hcalm.scans, hcalm.free⟩ hheld hkeeps hvidLen hplain hpart
    obtain ⟨m', hat', hready', hcalm₂⟩ := Calm.atTurn (n := n.lookingIn indexed)
      ⟨hcalm.contents, hcalm.writes, hcalm.scans, hcalm.free⟩ hheld hkeeps hvidLen hindexed hpart
    have hun : m'.Unindexed
        ⟨(n.lookingIn indexed).requests.length, ⟨r.space, part⟩, vidLen, indexes, edges⟩ c := by
      refine ⟨by simpa using hsome, htypes, fun e he hwidth => ?_⟩
      exact hsole vidLen hvidLen e he hwidth
    obtain ⟨code, removed, removed', hends, hends', hsame⟩ :=
      ends_both hready hready' rfl rfl rfl hcalm₁ hcalm₂ rfl hun hfits
    have hafter := hat.contents_of_ends rfl hcalm.contents hends
    have hafter' := hat'.contents_of_ends rfl hcalm.contents hends'
    rw [← hsame] at hafter'
    exact ⟨code, _, hat.code.trans hends.code, hat'.code.trans hends'.code, hafter, hafter'⟩

/-- A catalog with a space whose only index, if any, is on a given type. -/
def sampleCatalog (indexes : List Index) : Catalog :=
  ⟨OrderedMap.empty.insert 1 ⟨1, OrderedMap.empty.insert 5 [], indexes⟩⟩

theorem paths_agree_sample :
    ((sample.lookingIn (sampleCatalog [])).process sampleRequest).2.codeOf? 0 3
        = some .succeeded ∧
      ∃ code c',
        ((sample.lookingIn (sampleCatalog [])).process sampleRequest).2.codeOf? 0 3 = some code ∧
        ((sample.lookingIn (sampleCatalog [⟨8, 6, "other", []⟩])).process sampleRequest).2.codeOf?
          0 3 = some code ∧
        ((sample.lookingIn (sampleCatalog [])).process sampleRequest).2.store.contents ⟨1, 3⟩
          = .ok c' ∧
        ((sample.lookingIn (sampleCatalog [⟨8, 6, "other", []⟩])).process
          sampleRequest).2.store.contents ⟨1, 3⟩ = .ok c' := by
  have hcode : ((sample.lookingIn (sampleCatalog [])).process sampleRequest).2.codeOf? 0 3
      = some .succeeded := by decide +kernel
  have hcalm : sample.Calm ⟨1, 3⟩ [sampleEdge, sampleEdge] sampleContents :=
    ⟨rfl, rfl, rfl, by decide⟩
  have hsole : ∀ vidLen, sample.catalog.vidLen 1 = .ok vidLen →
      ∀ e ∈ [sampleEdge, sampleEdge], e.hasWidth vidLen = true → ∀ k v,
        sampleContents.get? k = some v → Key.edgePrefix vidLen 3 e <+: k →
          k = Key.record vidLen 3 e := by
    rintro vidLen hvidLen e he - k v hv hpre
    obtain rfl : 1 = vidLen := Except.ok.inj hvidLen
    obtain rfl : e = sampleEdge := by simpa using he
    have hall : ∀ p ∈ sampleContents.entries, Key.edgePrefix 1 3 sampleEdge <+: p.1 →
        p.1 = Key.record 1 3 sampleEdge := by decide +kernel
    exact hall (k, v) (OrderedMap.get?_eq_some_iff.1 hv) hpre
  exact ⟨hcode, paths_agree rfl rfl (by decide) hcalm hsole (by decide) rfl rfl (by simp)
    (by decide)⟩

end Node

end EdgeDeletion
