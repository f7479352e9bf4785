/-
The plan of a partition, as it is declared.

Below the prefix of an edge there are its locks, its record and its stale versions, in this
order, if nothing but keys of edges is stored there.  So the plan for the edge can be given
without a word on scans: the locks go, by their ids; if there is a record, the entries in the
indexes on its type go or are deferred, index by index, and the record goes; then the stale
versions go, by their numbers.

* `roles_in_order` — roles in ascending order are locks, the record and stale versions;
* `steps_of_found` — the steps for an edge;
* `edgeError_eq_declared` — how the plan for an edge fails;
* `plan_as_declared` — failure, steps, operations and counts of the plan for any edges.
-/
import EdgeDeletion.Proofs.Completeness
import EdgeDeletion.Proofs.EdgeKeyOrder
import Mathlib.Algebra.GroupWithZero.Nat
import Mathlib.Data.Set.List

namespace EdgeDeletion

open KeyOrder (before)

universe u

/-! ### The roles of the keys of an edge -/

namespace Key

namespace Role

/-- The id of a lock. -/
def lockId? : Role → Option Bytes
  | .lock id => some id
  | _ => none

/-- The number of a stale version. -/
def version? : Role → Option UInt64
  | .stale version => some version
  | _ => none

theorem lockId?_eq_some_iff {role : Role} {id : Bytes} :
    role.lockId? = some id ↔ role = .lock id := by
  cases role <;> simp [lockId?]

theorem version?_eq_some_iff {role : Role} {version : UInt64} :
    role.version? = some version ↔ role = .stale version := by
  cases role <;> simp [version?]

end Role

/-- Only stale versions come after a role that is no lock. -/
theorem only_versions_after {role : Role} (hrole : role.lockId? = none) {roles : List Role}
    (hafter : ∀ r ∈ roles, before role r = true) :
    roles.filterMap Role.lockId? = [] ∧ .record ∉ roles := by
  refine ⟨List.filterMap_eq_nil_iff.2 fun r hr => ?_, fun hr => ?_⟩
  · have hbefore := hafter r hr
    cases role with
    | lock id => exact absurd hrole nofun
    | _ =>
      cases r with
      | lock id => exact absurd hbefore nofun
      | _ => rfl
  · have hbefore := hafter _ hr
    cases role with
    | lock id => exact absurd hrole nofun
    | _ => exact absurd hbefore nofun

/-- Roles in ascending order are locks, the record and stale versions. -/
theorem roles_in_order {roles : List Role} (h : roles.Pairwise fun a b => before a b = true) :
    roles = (roles.filterMap Role.lockId?).map .lock ++
      ((if .record ∈ roles then [.record] else []) ++
        (roles.filterMap Role.version?).map .stale) := by
  induction roles with
  | nil => rfl
  | cons role roles ih =>
    obtain ⟨hfirst, hrest⟩ := List.pairwise_cons.1 h
    have ih := ih hrest
    cases role with
    | lock id => simpa [List.filterMap_cons, Role.lockId?, Role.version?] using ih
    | record =>
      obtain ⟨hnone, hnot⟩ := only_versions_after rfl hfirst
      rw [hnone, if_neg hnot] at ih
      simpa [List.filterMap_cons, Role.lockId?, Role.version?, hnone] using ih
    | stale version =>
      obtain ⟨hnone, hnot⟩ := only_versions_after rfl hfirst
      rw [hnone, if_neg hnot] at ih
      simpa [List.filterMap_cons, Role.lockId?, Role.version?, hnone, hnot] using ih

theorem kind_ofRole (vidLen : Nat) (part : PartId) (e : Edge) (role : Role) :
    kind vidLen (ofRole vidLen part e role) =
      match role with
      | .lock _ => .lock
      | .record => .record
      | .stale _ => .other := by
  cases role with
  | lock id => exact kind_lock ..
  | record => exact kind_record ..
  | stale version => exact kind_stale ..

/-- A key of some edge below the prefix of an edge is a key of that edge. -/
theorem eq_ofRole_of_prefix {vidLen : Nat} {part part' : PartId} {e e' : Edge} {role : Role}
    (h : edgePrefix vidLen part e <+: ofRole vidLen part' e' role) :
    ofRole vidLen part' e' role = ofRole vidLen part e role := by
  have hlen : (edgePrefix vidLen part e).length = (edgePrefix vidLen part' e').length := by
    rw [length_edgePrefix, length_edgePrefix]
  rw [ofRole_eq] at h ⊢
  rw [ofRole_eq]
  exact congrArg (· ++ role.tail) ((List.prefix_of_prefix_length_le h (List.prefix_append ..)
    (Nat.le_of_eq hlen)).eq_of_length hlen).symm

/-- The keys of one edge are ordered like their roles. -/
theorem before_ofRole_self (vidLen : Nat) (part : PartId) (e : Edge) (r r' : Role) :
    before (ofRole vidLen part e r) (ofRole vidLen part e r') = before r r' := by
  rw [ofRole_eq, ofRole_eq, ← before_tail]
  exact KeyOrder.listBefore_append_left ..

theorem ofRole_inj {vidLen : Nat} {part : PartId} {e : Edge} {r r' : Role}
    (h : ofRole vidLen part e r = ofRole vidLen part e r') : r = r' := by
  refine KeyOrder.connected ?_ ?_ <;>
    rw [← before_ofRole_self vidLen part e, h, KeyOrder.irrefl]

end Key

namespace Scene

variable {s : Scene} {c : Contents} {edge : Edge}

/-! ### What is stored for an edge -/

/-- Below the prefix of an edge nothing but keys of edges is stored. -/
def OwnKeys (s : Scene) (c : Contents) (edge : Edge) : Prop :=
  ∀ k v, c.get? k = some v → Key.edgePrefix s.vidLen s.place.part edge <+: k →
    ∃ part edge' role, k = Key.ofRole s.vidLen part edge' role

/-- The ids of the locks and the numbers of the stale versions that are stored for an edge, in
ascending order. -/
structure Lists (s : Scene) (c : Contents) (edge : Edge) (ids : List Bytes)
    (versions : List UInt64) : Prop where
  locks : ∀ id, id ∈ ids ↔ (c.get? (Key.lock s.vidLen s.place.part edge id)).isSome = true
  stale : ∀ v, v ∈ versions ↔ (c.get? (Key.stale s.vidLen s.place.part edge v)).isSome = true
  ids_ascend : ids.Pairwise fun a b => before a b = true
  versions_ascend : versions.Pairwise fun a b => before a b = true

/-- The roles whose keys are stored for an edge, in ascending order. -/
theorem exists_roles (hown : s.OwnKeys c edge) : ∃ roles : List Key.Role,
    (s.found c edge).map Prod.fst = roles.map (Key.ofRole s.vidLen s.place.part edge) ∧
      (roles.Pairwise fun a b => before a b = true) ∧
      ∀ r, r ∈ roles ↔ (c.get? (Key.ofRole s.vidLen s.place.part edge r)).isSome = true := by
  have hall : ∀ k ∈ (s.found c edge).map Prod.fst,
      k ∈ Set.range (Key.ofRole s.vidLen s.place.part edge) := by
    intro k hk
    obtain ⟨⟨k, v⟩, hmem, rfl⟩ := List.mem_map.1 hk
    obtain ⟨hv, hpre⟩ := s.mem_found.1 hmem
    obtain ⟨part, edge', role, rfl⟩ := hown k v hv hpre
    exact ⟨role, (Key.eq_ofRole_of_prefix hpre).symm⟩
  obtain ⟨roles, hroles⟩ : (s.found c edge).map Prod.fst
      ∈ Set.range (List.map (Key.ofRole s.vidLen s.place.part edge)) := by
    rw [Set.range_list_map]
    exact hall
  refine ⟨roles, hroles.symm, ?_, fun r => ?_⟩
  · have hord : ((s.found c edge).map Prod.fst).Pairwise fun a b => before a b = true :=
      List.pairwise_map.2 (Store.entriesFrom_ordered c _)
    rw [← hroles, List.pairwise_map] at hord
    exact hord.imp fun hab => by rwa [Key.before_ofRole_self] at hab
  · rw [Option.isSome_iff_exists]
    constructor
    · intro hr
      have hmem : Key.ofRole s.vidLen s.place.part edge r ∈ (s.found c edge).map Prod.fst := by
        rw [← hroles]
        exact List.mem_map_of_mem hr
      obtain ⟨⟨k, v⟩, hfound, hk⟩ := List.mem_map.1 hmem
      exact ⟨v, hk ▸ (s.mem_found.1 hfound).1⟩
    · rintro ⟨v, hv⟩
      have hpre : Key.edgePrefix s.vidLen s.place.part edge
          <+: Key.ofRole s.vidLen s.place.part edge r := by
        rw [Key.ofRole_eq]
        exact List.prefix_append ..
      have hmem : Key.ofRole s.vidLen s.place.part edge r ∈ (s.found c edge).map Prod.fst :=
        List.mem_map.2 ⟨_, s.mem_found.2 ⟨hv, hpre⟩, rfl⟩
      rw [← hroles] at hmem
      obtain ⟨r', hr', heq⟩ := List.mem_map.1 hmem
      exact Key.ofRole_inj heq ▸ hr'

/-- What is found for an edge are its locks, its record and its stale versions. -/
theorem exists_lists (hown : s.OwnKeys c edge) : ∃ ids versions, s.Lists c edge ids versions ∧
    (s.found c edge).map Prod.fst = ids.map (Key.lock s.vidLen s.place.part edge) ++
      ((if (c.get? (Key.record s.vidLen s.place.part edge)).isSome = true
        then [Key.record s.vidLen s.place.part edge] else []) ++
      versions.map (Key.stale s.vidLen s.place.part edge)) := by
  obtain ⟨roles, hfound, hord, hmem⟩ := exists_roles hown
  have hsplit := Key.roles_in_order hord
  have hord' := hord
  rw [hsplit, List.pairwise_append, List.pairwise_append, List.pairwise_map, List.pairwise_map]
    at hord'
  refine ⟨roles.filterMap Key.Role.lockId?, roles.filterMap Key.Role.version?,
    ⟨fun id => ?_, fun v => ?_, hord'.1, hord'.2.1.2.1⟩, ?_⟩
  · rw [show Key.lock s.vidLen s.place.part edge id
      = Key.ofRole s.vidLen s.place.part edge (.lock id) from rfl, ← hmem, List.mem_filterMap]
    constructor
    · rintro ⟨r, hr, hid⟩
      exact Key.Role.lockId?_eq_some_iff.1 hid ▸ hr
    · exact fun hr => ⟨_, hr, rfl⟩
  · rw [show Key.stale s.vidLen s.place.part edge v
      = Key.ofRole s.vidLen s.place.part edge (.stale v) from rfl, ← hmem, List.mem_filterMap]
    constructor
    · rintro ⟨r, hr, hid⟩
      exact Key.Role.version?_eq_some_iff.1 hid ▸ hr
    · exact fun hr => ⟨_, hr, rfl⟩
  · have hrecord := hmem .record
    rw [show Key.ofRole s.vidLen s.place.part edge .record
      = Key.record s.vidLen s.place.part edge from rfl] at hrecord
    rw [hfound]
    conv_lhs => rw [hsplit]
    by_cases hr : .record ∈ roles
    · simp [if_pos hr, if_pos (hrecord.1 hr), Key.ofRole, Function.comp_def]
    · simp [if_neg hr, if_neg (mt hrecord.2 hr), Key.ofRole, Function.comp_def]

theorem kind_of_stale {rest : List (Bytes × Bytes)} {versions : List UInt64}
    (hrest : rest.map Prod.fst = versions.map (Key.stale s.vidLen s.place.part edge)) :
    ∀ e ∈ rest, Key.kind s.vidLen e.1 ≠ .record := by
  intro e he
  have hk : e.1 ∈ versions.map (Key.stale s.vidLen s.place.part edge) :=
    hrest ▸ List.mem_map_of_mem he
  obtain ⟨v, -, hv⟩ := List.mem_map.1 hk
  rw [← hv, Key.kind_stale]
  decide

/-- The scan for an edge, taken apart: the locks come first, and the record comes next if there is
one. -/
theorem found_taken_apart (hown : s.OwnKeys c edge) : ∃ ids versions rest,
    s.Lists c edge ids versions ∧
    (((s.found c edge).takeWhile s.isLock).map Prod.fst
      = ids.map (Key.lock s.vidLen s.place.part edge)) ∧
    rest.map Prod.fst = versions.map (Key.stale s.vidLen s.place.part edge) ∧
    (s.found c edge).dropWhile s.isLock =
      match c.get? (Key.record s.vidLen s.place.part edge) with
      | none => rest
      | some raw => (Key.record s.vidLen s.place.part edge, raw) :: rest := by
  obtain ⟨ids, versions, hlists, hfound⟩ := exists_lists hown
  obtain ⟨locks, others, hsplit, hlocks, hothers⟩ := List.map_eq_append_iff.1 hfound
  have hlock : ∀ e ∈ locks, s.isLock e = true := by
    intro e he
    have hk : e.1 ∈ ids.map (Key.lock s.vidLen s.place.part edge) :=
      hlocks ▸ List.mem_map_of_mem he
    obtain ⟨id, -, hid⟩ := List.mem_map.1 hk
    have hkind := Key.kind_ofRole s.vidLen s.place.part edge (.lock id)
    rw [isLock, ← hid]
    exact beq_iff_eq.2 hkind
  -- the record and the stale versions are no locks
  have hnot : ∀ e ∈ others, s.isLock e = false := by
    intro e he
    have hk : e.1 ∈ _ := hothers ▸ List.mem_map_of_mem he
    rw [isLock, beq_eq_false_iff_ne]
    rcases List.mem_append.1 hk with hk | hk
    · split at hk
      · rw [List.mem_singleton.1 hk, Key.kind_record]
        decide
      · exact absurd hk List.not_mem_nil
    · obtain ⟨v, -, hv⟩ := List.mem_map.1 hk
      rw [← hv, Key.kind_stale]
      decide
  have htake : (s.found c edge).takeWhile s.isLock = locks := by
    rw [hsplit, List.takeWhile_append_of_pos hlock]
    cases others with
    | nil => simp
    | cons e others => simp [hnot e (List.mem_cons_self ..)]
  have hdrop : (s.found c edge).dropWhile s.isLock = others := by
    rw [hsplit, List.dropWhile_append_of_pos hlock]
    cases others with
    | nil => simp
    | cons e others => simp [hnot e (List.mem_cons_self ..)]
  cases hraw : c.get? (Key.record s.vidLen s.place.part edge) with
  | none =>
    simp only [hraw, Option.isSome_none, Bool.false_eq_true, if_false, List.nil_append] at hothers
    exact ⟨ids, versions, others, hlists, htake ▸ hlocks, hothers, hdrop⟩
  | some raw =>
    simp only [hraw, Option.isSome_some, if_true, List.singleton_append] at hothers
    obtain ⟨first, rest, rfl, hfirst, hrest⟩ := List.map_eq_cons_iff.1 hothers
    obtain ⟨k, v⟩ := first
    obtain rfl : k = Key.record s.vidLen s.place.part edge := hfirst
    have hmem : (Key.record s.vidLen s.place.part edge, v) ∈ s.found c edge := by
      rw [hsplit]
      simp
    obtain rfl := Option.some.inj ((s.mem_found.1 hmem).1.symm.trans hraw)
    exact ⟨ids, versions, rest, hlists, htake ▸ hlocks, hrest, hdrop⟩

/-! ### The steps for an edge -/

/-- What is declared to be done for an edge with given locks and stale versions. -/
def declaredSteps (s : Scene) (c : Contents) (edge : Edge) (ids : List Bytes)
    (versions : List UInt64) : List Step :=
  let key := Key.record s.vidLen s.place.part edge
  ids.map (fun id => .lock (Key.lock s.vidLen s.place.part edge id)) ++
    ((match c.get? key with
      | none => []
      | some raw => s.indexes.flatMap (s.entrySteps edge raw) ++ [.record key]) ++
    versions.map fun v => .version (Key.stale s.vidLen s.place.part edge v))

/-- The steps for an edge are those declared. -/
theorem steps_of_found (hown : s.OwnKeys c edge)
    (hplan : (s.keysPlan edge (s.found c edge)).error = none) :
    ∃ ids versions, s.Lists c edge ids versions ∧
      s.edgeSteps c edge = s.declaredSteps c edge ids versions := by
  obtain ⟨ids, versions, rest, hlists, hlocks, hrest, hdrop⟩ := found_taken_apart hown
  have hversions : (rest.map fun e => Step.version e.1)
      = versions.map fun v => Step.version (Key.stale s.vidLen s.place.part edge v) := by
    simpa [Function.comp_def] using congrArg (List.map Step.version) hrest
  have hids : (((s.found c edge).takeWhile s.isLock).map fun e => Step.lock e.1)
      = ids.map fun id => Step.lock (Key.lock s.vidLen s.place.part edge id) := by
    simpa [Function.comp_def] using congrArg (List.map Step.lock) hlocks
  refine ⟨ids, versions, hlists, ?_⟩
  rw [edgeSteps, s.keysPlan_steps hplan, declaredSteps, hids, hdrop]
  refine congrArg (_ ++ ·) ?_
  cases hraw : c.get? (Key.record s.vidLen s.place.part edge) with
  | none =>
    cases rest with
    | nil => exact hversions
    | cons first rest =>
      have hfirst := kind_of_stale hrest first (List.mem_cons_self ..)
      simp only [if_neg hfirst]
      exact hversions
  | some raw =>
    simp only [Key.kind_record, if_true, hversions, List.append_assoc, List.singleton_append]

/-! ### The failure of an edge -/

/-- How an index fails the plan for a stored record on whose type it is. -/
def declaredEntryError (s : Scene) (edge : Edge) (raw : Bytes) (index : Index) :
    Option DeleteError :=
  match s.catalog.decodeRow s.place.space edge.type raw with
  | .error source => some (.invalidRecord edge.type source)
  | .ok row =>
    match Image.ofRow row index.columns with
    | .error _ => none
    | .ok _ =>
      if s.markers.state s.place index.id = .locked then some (.indexLocked index.id index.name)
      else none

/-- How an edge fails, from what a scan gets to read: by its width, by the scan, or by the first
index on its type that fails. -/
def declaredError (s : Scene) (readable : Except StoreCode Contents) (edge : Edge) :
    Option DeleteError :=
  (widthError? s.vidLen edge).or
    (match readable with
    | .error code => some (.store code)
    | .ok c =>
      (c.get? (Key.record s.vidLen s.place.part edge)).bind fun raw =>
        (s.indexes.filter fun i => i.edgeType = edge.type).findSome?
          (s.declaredEntryError edge raw))

theorem entryPlan_error {raw : Bytes} {row : Row}
    (hrow : s.catalog.decodeRow s.place.space edge.type raw = .ok row) (index : Index) :
    (s.entryPlan edge row index).error = s.declaredEntryError edge raw index := by
  rw [entryPlan, declaredEntryError, hrow]
  cases himage : Image.ofRow row index.columns with
  | error cause => simp only [himage]; rfl
  | ok image =>
    simp only [himage]
    cases s.markers.state s.place index.id <;> rfl

/-- The plan for the entries of a record fails for the first index that does. -/
theorem entriesPlan_error (s : Scene) (edge : Edge) (raw : Bytes) :
    (s.entriesPlan edge raw).error
      = (s.indexes.filter fun i => i.edgeType = edge.type).findSome?
          (s.declaredEntryError edge raw) := by
  have hfilter : (s.indexes.filter fun i => i.edgeType == edge.type)
      = s.indexes.filter fun i => i.edgeType = edge.type := by
    refine List.filter_congr fun i _ => ?_
    rfl
  rw [entriesPlan, hfilter]
  cases hindexes : s.indexes.filter fun i => i.edgeType = edge.type with
  | nil => rfl
  | cons index indexes =>
    simp only [Plan.error_andThen]
    cases hrow : s.catalog.decodeRow s.place.space edge.type raw with
    | error source => simp [Plan.note, Plan.fail, declaredEntryError, hrow]
    | ok row =>
      show (none : Option DeleteError).or _ = _
      rw [Option.none_or, Plan.error_sequence, List.findSome?_map]
      exact congrArg (List.findSome? · _) (funext fun i => entryPlan_error hrow i)

/-- The plan for an edge fails as declared. -/
theorem edgeError_eq_declared (hown : s.OwnKeys c edge) :
    s.edgeError (.ok c) edge = s.declaredError (.ok c) edge := by
  obtain ⟨ids, versions, rest, -, -, hrest, hdrop⟩ := found_taken_apart hown
  have hlock : (fun e : Bytes × Bytes => Key.kind s.vidLen e.1 == .lock) = s.isLock := rfl
  refine congrArg (Option.or _) ?_
  simp only [keysPlan, hlock, Plan.error_andThen, hdrop]
  show (none : Option DeleteError).or _ = _
  rw [Option.none_or]
  cases hraw : c.get? (Key.record s.vidLen s.place.part edge) with
  | none =>
    cases rest with
    | nil => rfl
    | cons first rest =>
      have hfirst := kind_of_stale hrest first (List.mem_cons_self ..)
      simp only [if_neg hfirst]
      rfl
  | some raw =>
    simp only [Key.kind_record, if_true, Plan.error_andThen, entriesPlan_error]
    show Option.or _ (Option.or none none) = _
    simp

end Scene

/-! ### The plan for a partition -/

/-- What scans of a partition get to read. -/
def Store.readable {τ : Type u} (store : Store τ) (place : Place) : Except StoreCode Contents :=
  match store.scanFaults.get? place with
  | some code => .error code
  | none => store.contents place

/-- An operation that carries out a step: a removal at once, or a line of the log for one that is
deferred. -/
inductive Step.Becomes (part : PartId) : Step → BatchOp → Prop where
  | removes {step : Step} {key : Bytes} (h : step.removed? = some key) :
    Becomes part step (.remove key)
  | defers (key : Bytes) (number : UInt64) :
    Becomes part (.deferral key) (.put (Key.deferral part number) key)

/-- Steps become operations one by one, in order. -/
theorem Step.becomes_toOps (part : PartId) (q : Sequencer) (steps : List Step) :
    List.Forall₂ (Becomes part) steps (toOps part q steps).1 := by
  induction steps generalizing q with
  | nil => exact .nil
  | cons step steps ih =>
    cases step with
    | deferral key => exact .cons (.defers key q.draw.1) (ih q.draw.2)
    | _ => exact .cons (.removes rfl) (ih q)

namespace Scene

variable {s : Scene} {c : Contents} {edges : List Edge} {τ : Type u} {store : Store τ}

/-- A plan fails for the first edge that does, by what its scan gets to read. -/
theorem plan_error_readable (s : Scene) (store : Store τ) (edges : List Edge) :
    (s.plan store edges).2.error
      = edges.findSome? (s.edgeError (store.readable s.place)) := by
  cases hfault : store.scanFaults.get? s.place with
  | none =>
    rw [Store.readable, hfault]
    exact (plan_error hfault edges).2
  | some code =>
    rw [Store.readable, hfault]
    cases edges with
    | nil => rfl
    | cons edge edges =>
      -- no edge gets past its scan, so the first one decides
      rw [plan, List.findSome?_cons, edgeError, edgePlan]
      cases widthError? s.vidLen edge with
      | some e => rfl
      | none =>
        simp only [Store.scan, hfault]
        rfl

/-! ### Counts -/

theorem sum_map_toNat {α : Type} (p : α → Bool) (l : List α) :
    (l.map fun a => (p a).toNat).sum = l.countP p := by
  induction l with
  | nil => rfl
  | cons a l ih =>
    rw [List.map_cons, List.sum_cons, ih, List.countP_cons, Nat.add_comm]
    cases p a <;> rfl

theorem of_mem_entrySteps {edge : Edge} {raw : Bytes} {step : Step}
    (h : step ∈ s.indexes.flatMap (s.entrySteps edge raw)) :
    ∃ key, step = .entry key ∨ step = .deferral key := by
  obtain ⟨index, -, h⟩ := List.mem_flatMap.1 h
  rw [entrySteps] at h
  cases hkey : s.entryKey? edge raw index with
  | none => simp [hkey] at h
  | some key =>
    refine ⟨key, ?_⟩
    cases hstate : s.markers.state s.place index.id with
    | normal => exact .inl (by simpa [hkey, hstate] using h)
    | rebuilding => exact .inr (by simpa [hkey, hstate] using h)
    | locked => simp [hkey, hstate] at h

/-- The steps with the record, counted apart from locks and stale versions. -/
theorem countP_declaredSteps {p : Step → Bool} (hlock : ∀ key, p (.lock key) = false)
    (hversion : ∀ key, p (.version key) = false) (edge : Edge) (ids : List Bytes)
    (versions : List UInt64) :
    (s.declaredSteps c edge ids versions).countP p =
      match c.get? (Key.record s.vidLen s.place.part edge) with
      | none => 0
      | some raw => (s.indexes.flatMap (s.entrySteps edge raw)).countP p +
          (p (.record (Key.record s.vidLen s.place.part edge))).toNat := by
  have hlocks : (ids.map fun id => Step.lock (Key.lock s.vidLen s.place.part edge id)).countP p
      = 0 := List.countP_eq_zero.2 fun step hstep => by
    obtain ⟨id, -, rfl⟩ := List.mem_map.1 hstep
    simp [hlock]
  have hversions : (versions.map fun v =>
      Step.version (Key.stale s.vidLen s.place.part edge v)).countP p = 0 :=
    List.countP_eq_zero.2 fun step hstep => by
      obtain ⟨v, -, rfl⟩ := List.mem_map.1 hstep
      simp [hversion]
  rw [declaredSteps, List.countP_append, List.countP_append, hlocks, hversions, Nat.zero_add,
    Nat.add_zero]
  cases c.get? (Key.record s.vidLen s.place.part edge) with
  | none => rfl
  | some raw =>
    simp only [List.countP_append, List.countP_singleton]
    cases p (.record (Key.record s.vidLen s.place.part edge)) <;> rfl

theorem countP_isRecord_declared (edge : Edge) (ids : List Bytes) (versions : List UInt64) :
    (s.declaredSteps c edge ids versions).countP Step.isRecord
      = (c.get? (Key.record s.vidLen s.place.part edge)).isSome.toNat := by
  rw [countP_declaredSteps (fun _ => rfl) fun _ => rfl]
  cases c.get? (Key.record s.vidLen s.place.part edge) with
  | none => rfl
  | some raw =>
    have hnone : (s.indexes.flatMap (s.entrySteps edge raw)).countP Step.isRecord = 0 :=
      List.countP_eq_zero.2 fun step hstep => by
        obtain ⟨key, rfl | rfl⟩ := of_mem_entrySteps hstep <;> exact nofun
    simp [hnone, Step.isRecord]

theorem countP_isEntry_declared (edge : Edge) (ids : List Bytes) (versions : List UInt64) :
    (s.declaredSteps c edge ids versions).countP Step.isEntry
      = (s.indexKeys .normal c edge).length := by
  rw [countP_declaredSteps (fun _ => rfl) fun _ => rfl, indexKeys]
  cases c.get? (Key.record s.vidLen s.place.part edge) with
  | none => rfl
  | some raw =>
    simp only [← removedKeys_entrySteps]
    rw [Step.removedKeys, List.length_filterMap_eq_countP]
    refine List.countP_congr fun step hstep => ?_
    obtain ⟨key, rfl | rfl⟩ := of_mem_entrySteps hstep <;> simp [Step.isEntry, Step.removed?]

theorem countP_isDeferral_declared (edge : Edge) (ids : List Bytes) (versions : List UInt64) :
    (s.declaredSteps c edge ids versions).countP Step.isDeferral
      = (s.indexKeys .rebuilding c edge).length := by
  rw [countP_declaredSteps (fun _ => rfl) fun _ => rfl, indexKeys]
  cases c.get? (Key.record s.vidLen s.place.part edge) with
  | none => rfl
  | some raw =>
    simp only [← deferredKeys_entrySteps, ← Step.countP_isDeferral]
    rfl

/-- **The plan for a partition is the declared one.**  This takes it that below the prefixes of
the edges nothing but keys of edges is stored.  The plan fails just if an edge does, and then as
the first one that does: by its width, or else by its scan, or else by the first index on its
type for which the row of its record does not decode or which is locked and has an image.
Otherwise its steps are, edge by edge, those declared: the locks, the index entries and the
record, and the stale versions.  They become operations one by one, and the edges, entries and
deferrals that are counted are those of the records that are stored. -/
theorem plan_as_declared (hown : ∀ e ∈ edges, s.OwnKeys (store.stored s.place) e)
    (q : Sequencer) :
    let c := store.stored s.place
    let p := (s.plan store edges).2
    p.error = edges.findSome? (s.declaredError (store.readable s.place)) ∧
    (p.error = none →
      (∃ (ids : Edge → List Bytes) (versions : Edge → List UInt64),
        (∀ e ∈ edges, s.Lists c e (ids e) (versions e)) ∧
        p.steps = edges.flatMap fun e => s.declaredSteps c e (ids e) (versions e)) ∧
      List.Forall₂ (Step.Becomes s.place.part) p.steps (Step.toOps s.place.part q p.steps).1 ∧
      p.steps.countP Step.isRecord
        = edges.countP (fun e => (c.get? (Key.record s.vidLen s.place.part e)).isSome) ∧
      p.steps.countP Step.isEntry = (edges.map fun e => (s.indexKeys .normal c e).length).sum ∧
      p.steps.countP Step.isDeferral
        = (edges.map fun e => (s.indexKeys .rebuilding c e).length).sum) := by
  intro c p
  have herror : p.error = edges.findSome? (s.declaredError (store.readable s.place)) := by
    refine (s.plan_error_readable store edges).trans ?_
    have hedge : ∀ e ∈ edges, s.edgeError (store.readable s.place) e
        = s.declaredError (store.readable s.place) e := by
      intro e he
      cases hc : store.readable s.place with
      | error code => rfl
      | ok d =>
        have hd : store.contents s.place = .ok d := by
          rw [Store.readable] at hc
          cases hfault : store.scanFaults.get? s.place with
          | some code => simp [hfault] at hc
          | none => simpa [hfault] using hc
        exact edgeError_eq_declared (Store.stored_of_contents hd ▸ hown e he)
    rw [← List.head?_filterMap, ← List.head?_filterMap, List.filterMap_congr hedge]
  refine ⟨herror, fun hnone => ?_⟩
  obtain ⟨hplan, hsteps⟩ := plan_stored hnone
  have hlists : ∀ e : Edge, ∃ lists : List Bytes × List UInt64, e ∈ edges →
      s.Lists c e lists.1 lists.2 ∧ s.edgeSteps c e = s.declaredSteps c e lists.1 lists.2 := by
    intro e
    by_cases he : e ∈ edges
    · obtain ⟨ids, versions, hlists, hdeclared⟩ := steps_of_found (hown e he) (hplan e he).2
      exact ⟨(ids, versions), fun _ => ⟨hlists, hdeclared⟩⟩
    · exact ⟨([], []), fun h => absurd h he⟩
  choose lists hlists using hlists
  have hdeclared : p.steps
      = edges.flatMap fun e => s.declaredSteps c e (lists e).1 (lists e).2 :=
    hsteps.trans (List.flatMap_congr fun e he => (hlists e he).2)
  refine ⟨⟨fun e => (lists e).1, fun e => (lists e).2, fun e he => (hlists e he).1, hdeclared⟩,
    Step.becomes_toOps _ q _, ?_, ?_, ?_⟩
  · rw [hdeclared, List.countP_flatMap]
    simp only [Function.comp_def, countP_isRecord_declared]
    exact sum_map_toNat ..
  · rw [hdeclared, List.countP_flatMap]
    simp only [Function.comp_def, countP_isEntry_declared]
  · rw [hdeclared, List.countP_flatMap]
    simp only [Function.comp_def, countP_isDeferral_declared]

/-- A partition with a lock, the record and a stale version of an edge. -/
def sampleStored : Contents :=
  ((OrderedMap.empty.insert (Key.stale 1 3 Node.sampleEdge 4) []).insert
    (Key.record 1 3 Node.sampleEdge) [1, 0, 0]).insert (Key.lock 1 3 Node.sampleEdge [9]) []

def sampleStore : Store Submitter :=
  { Store.empty with parts := OrderedMap.empty.insert ⟨1, 3⟩ sampleStored }

/-- A scene with two indexes on the type of the edge, of which the second is under rebuild. -/
def sampleScene : Scene :=
  ⟨Node.sample.catalog, IndexMarkers.empty.setIndex ⟨1, 3⟩ 8 .rebuilding,
    [⟨7, 5, "since", []⟩, ⟨8, 5, "until", []⟩], ⟨1, 3⟩, 1, 1⟩

theorem plan_as_declared_sample :
    let edges := [Node.sampleEdge, Node.sampleEdge]
    let p := (sampleScene.plan sampleStore edges).2
    (∀ e ∈ edges, sampleScene.OwnKeys (sampleStore.stored ⟨1, 3⟩) e) ∧ p.error = none ∧
      p.steps.countP Step.isRecord = 2 ∧ p.steps.countP Step.isEntry = 2 ∧
      p.steps.countP Step.isDeferral = 2 := by
  intro edges p
  have hown : ∀ e ∈ edges, sampleScene.OwnKeys (sampleStore.stored ⟨1, 3⟩) e := by
    rintro e - k v hv -
    have hkeys : (sampleStore.stored ⟨1, 3⟩).keys = [Key.lock 1 3 Node.sampleEdge [9],
      Key.record 1 3 Node.sampleEdge, Key.stale 1 3 Node.sampleEdge 4] := by decide +kernel
    have hk : k ∈ (sampleStore.stored ⟨1, 3⟩).keys :=
      OrderedMap.mem_keys_iff.2 (Option.isSome_iff_exists.2 ⟨v, hv⟩)
    simp only [hkeys, List.mem_cons, List.not_mem_nil, or_false] at hk
    rcases hk with rfl | rfl | rfl
    · exact ⟨3, Node.sampleEdge, .lock [9], rfl⟩
    · exact ⟨3, Node.sampleEdge, .record, rfl⟩
    · exact ⟨3, Node.sampleEdge, .stale 4, rfl⟩
  obtain ⟨herror, hrest⟩ := plan_as_declared hown (.start fun _ => 0)
  have hnone : p.error = none := herror.trans (by decide +kernel)
  obtain ⟨-, -, hrecords, hentries, hdeferrals⟩ := hrest hnone
  exact ⟨hown, hnone, hrecords.trans (by decide +kernel), hentries.trans (by decide +kernel),
    hdeferrals.trans (by decide +kernel)⟩

end Scene

end EdgeDeletion
