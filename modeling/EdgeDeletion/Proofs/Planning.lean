/-
What a plan consists of.

Planning leaves the store as it is, but for a failure of a scan that was set up and is
used up.  A plan that does not fail is made edge by edge, from the contents alone:

* `keysPlan_steps` — the steps for an edge: every key that was found goes, and the
  index entries of the record go or are deferred;
* `plan_steps` — the steps for a list of edges are those for each edge.
-/
import EdgeDeletion.Proofs.Steps

namespace EdgeDeletion

universe u

/-! ### Plans one after the other -/

namespace Plan

theorem steps_andThen {p q : Plan} (h : (p.andThen q).error = none) :
    p.error = none ∧ q.error = none ∧ (p.andThen q).steps = p.steps ++ q.steps := by
  obtain ⟨steps, trace, error⟩ := p
  cases error with
  | none => exact ⟨rfl, h, rfl⟩
  | some e => simp [andThen] at h

theorem error_andThen (p q : Plan) : (p.andThen q).error = p.error.or q.error := by
  obtain ⟨steps, trace, error⟩ := p
  cases error <;> rfl

theorem steps_sequence {ps : List Plan} (h : (sequence ps).error = none) :
    (sequence ps).steps = ps.flatMap (·.steps) := by
  induction ps with
  | nil => rfl
  | cons p ps ih =>
    obtain ⟨-, hrest, hsteps⟩ := steps_andThen (p := p) h
    rw [sequence, hsteps, ih hrest, List.flatMap_cons]

/-- Plans one after the other fail like the first that does. -/
theorem error_sequence (ps : List Plan) : (sequence ps).error = ps.findSome? (·.error) := by
  induction ps with
  | nil => rfl
  | cons p ps ih =>
    rw [sequence, error_andThen, ih, List.findSome?_cons]
    cases p.error <;> rfl

end Plan

/-! ### Index entries of an edge -/

namespace Scene

variable (s : Scene)

/-- The key of the entry of a stored record in an index, if the index is on the type of the edge,
the row decodes and has an image. -/
def entryKey? (edge : Edge) (raw : Bytes) (index : Index) : Option Bytes :=
  if index.edgeType = edge.type then
    match s.catalog.decodeRow s.place.space edge.type raw with
    | .error _ => none
    | .ok row =>
      match Image.ofRow row index.columns with
      | .error _ => none
      | .ok image => some (Key.entry s.vidLen s.place.part index.id edge image)
  else none

/-- The keys of the entries of a stored record in the indexes that are in a state. -/
def entryKeys (state : IndexState) (edge : Edge) (raw : Bytes) : List Bytes :=
  (s.indexes.filter fun i => s.markers.state s.place i.id = state).filterMap
    (s.entryKey? edge raw)

/-- The steps for the entry of a stored record in an index. -/
def entrySteps (edge : Edge) (raw : Bytes) (index : Index) : List Step :=
  match s.entryKey? edge raw index, s.markers.state s.place index.id with
  | some key, .normal => [.entry key]
  | some key, .rebuilding => [.deferral key]
  | _, _ => []

theorem entryPlan_steps {edge : Edge} {raw : Bytes} {row : Row} {index : Index}
    (hrow : s.catalog.decodeRow s.place.space edge.type raw = .ok row)
    (htype : index.edgeType = edge.type) :
    (s.entryPlan edge row index).steps = s.entrySteps edge raw index := by
  rw [entryPlan, entrySteps, entryKey?, if_pos htype, hrow]
  cases himage : Image.ofRow row index.columns with
  | error cause => simp only [himage]; rfl
  | ok image =>
    simp only [himage]
    cases s.markers.state s.place index.id <;> rfl

/-- Indexes on other types have no steps. -/
theorem flatMap_entrySteps (edge : Edge) (raw : Bytes) :
    s.indexes.flatMap (s.entrySteps edge raw)
      = (s.indexes.filter fun i => i.edgeType == edge.type).flatMap (s.entrySteps edge raw) := by
  generalize s.indexes = indexes
  induction indexes with
  | nil => rfl
  | cons index indexes ih =>
    by_cases htype : index.edgeType = edge.type
    · rw [List.filter_cons_of_pos (by simpa using htype), List.flatMap_cons, List.flatMap_cons, ih]
    · rw [List.filter_cons_of_neg (by simpa using htype), List.flatMap_cons, ih, entrySteps,
        entryKey?, if_neg htype]
      rfl

theorem entriesPlan_steps {edge : Edge} {raw : Bytes}
    (h : (s.entriesPlan edge raw).error = none) :
    (s.entriesPlan edge raw).steps = s.indexes.flatMap (s.entrySteps edge raw) := by
  rw [entriesPlan] at h ⊢
  rw [flatMap_entrySteps]
  cases hindexes : s.indexes.filter fun i => i.edgeType == edge.type with
  | nil => rfl
  | cons index indexes =>
    simp only [hindexes] at h ⊢
    -- the plan first notes that the row is decoded, which is no step
    obtain ⟨-, herror, hsteps⟩ := Plan.steps_andThen h
    rw [hsteps]
    cases hrow : s.catalog.decodeRow s.place.space edge.type raw with
    | error source => simp [hrow, Plan.fail] at herror
    | ok row =>
      simp only [hrow] at herror ⊢
      rw [Plan.steps_sequence herror, List.flatMap_map]
      refine List.flatMap_congr fun i hi => ?_
      have htype : i.edgeType = edge.type := by
        rw [← hindexes, List.mem_filter] at hi
        simpa using hi.2
      exact s.entryPlan_steps hrow htype

theorem removedKeys_entrySteps (edge : Edge) (raw : Bytes) :
    Step.removedKeys (s.indexes.flatMap (s.entrySteps edge raw))
      = s.entryKeys .normal edge raw := by
  rw [entryKeys]
  generalize s.indexes = indexes
  induction indexes with
  | nil => rfl
  | cons index indexes ih =>
    rw [List.flatMap_cons, Step.removedKeys_append, ih, entrySteps]
    cases hkey : s.entryKey? edge raw index <;>
      cases hstate : s.markers.state s.place index.id <;>
        simp [Step.removedKeys, Step.removed?, hkey, hstate]

theorem deferredKeys_entrySteps (edge : Edge) (raw : Bytes) :
    Step.deferredKeys (s.indexes.flatMap (s.entrySteps edge raw))
      = s.entryKeys .rebuilding edge raw := by
  rw [entryKeys]
  generalize s.indexes = indexes
  induction indexes with
  | nil => rfl
  | cons index indexes ih =>
    rw [List.flatMap_cons, Step.deferredKeys_append, ih, entrySteps]
    cases hkey : s.entryKey? edge raw index <;>
      cases hstate : s.markers.state s.place index.id <;>
        simp [Step.deferredKeys, Step.deferred?, hkey, hstate]

/-! ### The steps for the keys below a prefix -/

/-- Whether an entry is a lock placeholder. -/
def isLock (e : Bytes × Bytes) : Bool := Key.kind s.vidLen e.1 == .lock

/-- The steps for the keys found below the prefix of an edge: every key goes, and with the record
its index entries go or are deferred. -/
theorem keysPlan_steps {edge : Edge} {found : List (Bytes × Bytes)}
    (h : (s.keysPlan edge found).error = none) :
    (s.keysPlan edge found).steps
      = ((found.takeWhile s.isLock).map fun e => Step.lock e.1) ++
        match found.dropWhile s.isLock with
        | [] => []
        | (key, raw) :: rest =>
          if Key.kind s.vidLen key = .record then
            s.indexes.flatMap (s.entrySteps edge raw) ++
              .record key :: rest.map fun e => .version e.1
          else ((key, raw) :: rest).map fun e => .version e.1 := by
  have hlock : (fun e : Bytes × Bytes => Key.kind s.vidLen e.1 == .lock) = s.isLock := rfl
  simp only [keysPlan, hlock] at h ⊢
  obtain ⟨-, herror, hsteps⟩ := Plan.steps_andThen h
  rw [hsteps]
  refine congrArg (_ ++ ·) ?_
  cases hrest : found.dropWhile s.isLock with
  | nil => rfl
  | cons e rest =>
    obtain ⟨key, raw⟩ := e
    simp only [hrest] at herror ⊢
    by_cases hkey : Key.kind s.vidLen key = .record
    · rw [if_pos hkey] at herror ⊢
      rw [if_pos hkey]
      obtain ⟨hentries, -, hsteps⟩ := Plan.steps_andThen herror
      rw [hsteps, s.entriesPlan_steps hentries]
      rfl
    · rw [if_neg hkey, if_neg hkey]
      rfl

/-- The keys that go and those that are deferred.  Either the record does not follow the locks,
and just what was found goes; or it does, and its index entries go or are deferred with it. -/
theorem keysPlan_keys {edge : Edge} {found : List (Bytes × Bytes)}
    (h : (s.keysPlan edge found).error = none) :
    ((∀ e, (found.dropWhile s.isLock).head? = some e → Key.kind s.vidLen e.1 ≠ .record) ∧
      Step.removedKeys (s.keysPlan edge found).steps = found.map Prod.fst ∧
      Step.deferredKeys (s.keysPlan edge found).steps = []) ∨
    ∃ locks key raw rest, found = locks ++ (key, raw) :: rest ∧
      Key.kind s.vidLen key = .record ∧
      Step.removedKeys (s.keysPlan edge found).steps
        = locks.map Prod.fst ++ s.entryKeys .normal edge raw ++ key :: rest.map Prod.fst ∧
      Step.deferredKeys (s.keysPlan edge found).steps = s.entryKeys .rebuilding edge raw := by
  have hfound := List.takeWhile_append_dropWhile (p := s.isLock) (l := found)
  rw [s.keysPlan_steps h, Step.removedKeys_append, Step.deferredKeys_append,
    Step.removedKeys_map fun _ => rfl, Step.deferredKeys_map fun _ => rfl]
  cases hrest : found.dropWhile s.isLock with
  | nil =>
    rw [hrest, List.append_nil] at hfound
    rw [hfound]
    exact .inl ⟨by simp, List.append_nil _, rfl⟩
  | cons first rest =>
    obtain ⟨key, raw⟩ := first
    rw [hrest] at hfound
    by_cases hkey : Key.kind s.vidLen key = .record
    · refine .inr ⟨_, key, raw, rest, hfound.symm, hkey, ?_, ?_⟩
      · simp only [if_pos hkey]
        rw [Step.removedKeys_append, s.removedKeys_entrySteps, List.append_assoc]
        exact congrArg (fun keys => _ ++ (_ ++ key :: keys))
          (Step.removedKeys_map (fun _ => rfl) rest)
      · simp only [if_pos hkey]
        rw [Step.deferredKeys_append, s.deferredKeys_entrySteps]
        exact (congrArg (_ ++ ·) (Step.deferredKeys_map (fun _ => rfl) rest)).trans
          (List.append_nil _)
    · simp only [if_neg hkey]
      rw [Step.removedKeys_map fun _ => rfl, Step.deferredKeys_map fun _ => rfl,
        ← List.map_append, hfound]
      refine .inl ⟨fun e he => ?_, rfl, rfl⟩
      rw [← Option.some.inj he]
      exact hkey

/-! ### The steps for an edge -/

/-- The keys that a scan finds for an edge. -/
def found (c : Contents) (edge : Edge) : List (Bytes × Bytes) :=
  Store.entriesFrom c (Key.edgePrefix s.vidLen s.place.part edge)

theorem mem_found {c : Contents} {edge : Edge} {k v : Bytes} :
    (k, v) ∈ s.found c edge ↔
      c.get? k = some v ∧ Key.edgePrefix s.vidLen s.place.part edge <+: k :=
  Store.mem_entriesFrom

/-- What is found first after the locks is the record if it is of that kind. -/
theorem eq_record_of_found {c : Contents} {edge : Edge} {locks rest : List (Bytes × Bytes)}
    {key raw : Bytes} (hsplit : s.found c edge = locks ++ (key, raw) :: rest)
    (hkey : Key.kind s.vidLen key = .record) :
    key = Key.record s.vidLen s.place.part edge ∧
      c.get? (Key.record s.vidLen s.place.part edge) = some raw := by
  have hmem : (key, raw) ∈ s.found c edge := by
    rw [hsplit]
    simp
  obtain ⟨hraw, hpre⟩ := s.mem_found.1 hmem
  obtain rfl := Key.eq_record_of_kind hpre hkey
  exact ⟨rfl, hraw⟩

/-- Below a prefix, no other key than the prefix itself comes before the record and is no lock. -/
theorem eq_nil_of_before_record {edge : Edge} {rest : Bytes}
    (hnot : Key.kind s.vidLen (Key.edgePrefix s.vidLen s.place.part edge ++ rest) ≠ .lock)
    (hbefore : KeyOrder.before (Key.edgePrefix s.vidLen s.place.part edge ++ rest)
      (Key.record s.vidLen s.place.part edge) = true) : rest = [] := by
  rw [Key.kind_edgePrefix_append] at hnot
  rw [Key.record] at hbefore
  have hbefore := (KeyOrder.listBefore_append_left ..).symm.trans hbefore
  cases rest with
  | nil => rfl
  | cons b rest =>
    -- the byte of a record is the next one after that of a lock
    have hb : b ≠ Key.lockByte := by
      rintro rfl
      simp [Key.kindOfRest] at hnot
    have hlt : b.toNat < 1 := by
      simpa [KeyOrder.listBefore, KeyOrder.before, Key.recordByte] using hbefore
    exact absurd (UInt8.toNat_inj.1 (Nat.lt_one_iff.1 hlt)) hb

/-- Below a prefix, the record follows the locks unless the prefix itself is a key. -/
theorem head?_dropWhile_isLock {c : Contents} {edge : Edge} {raw : Bytes}
    (hraw : c.get? (Key.record s.vidLen s.place.part edge) = some raw)
    (hbare : c.get? (Key.edgePrefix s.vidLen s.place.part edge) = none) :
    ((s.found c edge).dropWhile s.isLock).head?
      = some (Key.record s.vidLen s.place.part edge, raw) := by
  have hmem : (Key.record s.vidLen s.place.part edge, raw) ∈ s.found c edge :=
    s.mem_found.2 ⟨hraw, Key.edgePrefix_prefix_record ..⟩
  have hsplit := List.takeWhile_append_dropWhile (p := s.isLock) (l := s.found c edge)
  have hord : (s.found c edge).Pairwise fun a b => KeyOrder.before a.1 b.1 = true :=
    Store.entriesFrom_ordered c _
  -- the record is found, and it is not among the locks
  have hdrop : (Key.record s.vidLen s.place.part edge, raw)
      ∈ (s.found c edge).dropWhile s.isLock := by
    rw [← hsplit, List.mem_append] at hmem
    refine hmem.resolve_left fun htake => ?_
    have := List.mem_takeWhile_imp htake
    simp [isLock, Key.kind_record] at this
  cases hrest : (s.found c edge).dropWhile s.isLock with
  | nil => simp [hrest] at hdrop
  | cons first rest =>
    rw [hrest] at hsplit hdrop
    rcases List.mem_cons.1 hdrop with hfirst | hlater
    · rw [hfirst]
      rfl
    · -- a key that is no lock and comes before the record could only be the bare prefix
      exfalso
      have hnot : s.isLock first = false := by
        have hhead := List.head?_dropWhile_not s.isLock (s.found c edge)
        rw [hrest] at hhead
        simpa using hhead
      have hfound : first ∈ s.found c edge := by
        rw [← hsplit]
        simp
      have hbefore : KeyOrder.before first.1 (Key.record s.vidLen s.place.part edge) = true := by
        rw [← hsplit] at hord
        exact (List.pairwise_cons.1 (List.pairwise_append.1 hord).2.1).1 _ hlater
      obtain ⟨k, v⟩ := first
      obtain ⟨hv, rest', rfl⟩ := s.mem_found.1 hfound
      obtain rfl := s.eq_nil_of_before_record (by simpa [isLock] using hnot) hbefore
      simp [hbare] at hv

/-- The steps for an edge in a partition with some contents. -/
def edgeSteps (c : Contents) (edge : Edge) : List Step := (s.keysPlan edge (s.found c edge)).steps

/-- The index keys of an edge, as far as its record is stored, in the indexes that are in a
state. -/
def indexKeys (state : IndexState) (c : Contents) (edge : Edge) : List Bytes :=
  match c.get? (Key.record s.vidLen s.place.part edge) with
  | none => []
  | some raw => s.entryKeys state edge raw

section EdgeSteps

variable {s : Scene} {c : Contents} {edge : Edge}

theorem mem_indexKeys {state : IndexState} {k : Bytes} :
    k ∈ s.indexKeys state c edge ↔ ∃ raw row index image,
      c.get? (Key.record s.vidLen s.place.part edge) = some raw ∧
      s.catalog.decodeRow s.place.space edge.type raw = .ok row ∧
      index ∈ s.indexes ∧ s.markers.state s.place index.id = state ∧ index.edgeType = edge.type ∧
      Image.ofRow row index.columns = .ok image ∧
      k = Key.entry s.vidLen s.place.part index.id edge image := by
  rw [indexKeys]
  cases hraw : c.get? (Key.record s.vidLen s.place.part edge) with
  | none => simp
  | some raw =>
    simp only [entryKeys, List.mem_filterMap, List.mem_filter, decide_eq_true_eq]
    constructor
    · rintro ⟨index, ⟨hindex, hstate⟩, hkey⟩
      rw [entryKey?] at hkey
      split at hkey
      · rename_i htype
        cases hrow : s.catalog.decodeRow s.place.space edge.type raw with
        | error source => simp [hrow] at hkey
        | ok row =>
          cases himage : Image.ofRow row index.columns with
          | error cause => simp [hrow, himage] at hkey
          | ok image =>
            simp only [hrow, himage, Option.some.injEq] at hkey
            exact ⟨raw, row, index, image, rfl, hrow, hindex, hstate, htype, himage, hkey.symm⟩
      · simp at hkey
    · rintro ⟨raw', row, index, image, hraw', hrow, hindex, hstate, htype, himage, rfl⟩
      obtain rfl := Option.some.inj hraw'
      refine ⟨index, ⟨hindex, hstate⟩, ?_⟩
      simp only [entryKey?, if_pos htype, hrow, himage]

theorem head?_of_mem_indexKeys {state : IndexState} {k : Bytes}
    (h : k ∈ s.indexKeys state c edge) : k.head? = some Key.indexTag := by
  obtain ⟨raw, row, index, image, -, -, -, -, -, -, rfl⟩ := mem_indexKeys.1 h
  rfl

/-- No key is the entry of edges in two indexes of different states. -/
theorem state_of_mem_indexKeys {state state' : IndexState} {edge' : Edge} {k : Bytes}
    (h : k ∈ s.indexKeys state c edge) (h' : k ∈ s.indexKeys state' c edge') : state = state' := by
  obtain ⟨raw, row, index, image, -, -, -, hstate, -, -, rfl⟩ := mem_indexKeys.1 h
  obtain ⟨raw', row', index', image', -, -, -, hstate', -, -, hkey⟩ := mem_indexKeys.1 h'
  rw [← hstate, ← hstate', (Key.entry_index_inj hkey).2]

/-- Every key below the prefix goes. -/
theorem mem_removedKeys_edgeSteps (h : (s.keysPlan edge (s.found c edge)).error = none)
    {k v : Bytes} (hk : c.get? k = some v) (hpre : Key.edgePrefix s.vidLen s.place.part edge <+: k) :
    k ∈ Step.removedKeys (s.edgeSteps c edge) := by
  have hfound : k ∈ (s.found c edge).map Prod.fst :=
    List.mem_map.2 ⟨(k, v), s.mem_found.2 ⟨hk, hpre⟩, rfl⟩
  rw [edgeSteps]
  -- either just what was found goes, or index entries go besides
  rcases s.keysPlan_keys h with ⟨-, hremoved, -⟩ | ⟨locks, key, raw, rest, hsplit, -, hremoved, -⟩
  · rw [hremoved]
    exact hfound
  · rw [hsplit, List.map_append, List.map_cons, List.mem_append] at hfound
    rw [hremoved, List.mem_append, List.mem_append]
    exact hfound.imp .inl id

/-- Besides keys below the prefix only index entries of the stored record go. -/
theorem of_mem_removedKeys_edgeSteps (h : (s.keysPlan edge (s.found c edge)).error = none)
    {k : Bytes} (hk : k ∈ Step.removedKeys (s.edgeSteps c edge)) :
    Key.edgePrefix s.vidLen s.place.part edge <+: k ∨ k ∈ s.indexKeys .normal c edge := by
  have hpre : ∀ {k}, k ∈ (s.found c edge).map Prod.fst →
      Key.edgePrefix s.vidLen s.place.part edge <+: k := by
    intro k hk
    obtain ⟨⟨k, v⟩, hmem, rfl⟩ := List.mem_map.1 hk
    exact (s.mem_found.1 hmem).2
  rw [edgeSteps] at hk
  rcases s.keysPlan_keys h with
    ⟨-, hremoved, -⟩ | ⟨locks, key, raw, rest, hsplit, hkey, hremoved, -⟩
  · rw [hremoved] at hk
    exact .inl (hpre hk)
  · obtain ⟨rfl, hraw⟩ := s.eq_record_of_found hsplit hkey
    rw [hremoved, List.mem_append, List.mem_append] at hk
    rcases hk with (hk | hk) | hk
    · exact .inl (hpre (by rw [hsplit, List.map_append]; exact List.mem_append_left _ hk))
    · refine .inr ?_
      rw [indexKeys, hraw]
      exact hk
    · exact .inl (hpre (by rw [hsplit, List.map_append]; exact List.mem_append_right _ hk))

/-- Unless the bare prefix is a key, the index entries of the stored record go or are deferred. -/
theorem indexKeys_edgeSteps (h : (s.keysPlan edge (s.found c edge)).error = none)
    (hbare : c.get? (Key.edgePrefix s.vidLen s.place.part edge) = none) :
    (∀ k ∈ s.indexKeys .normal c edge, k ∈ Step.removedKeys (s.edgeSteps c edge)) ∧
      Step.deferredKeys (s.edgeSteps c edge) = s.indexKeys .rebuilding c edge := by
  rw [edgeSteps]
  rcases s.keysPlan_keys h with ⟨hfirst, -, hdeferred⟩ |
    ⟨locks, key, raw, rest, hsplit, hkey, hremoved, hdeferred⟩
  · -- the record does not follow the locks, so there is none
    have hnone : c.get? (Key.record s.vidLen s.place.part edge) = none := by
      cases hraw : c.get? (Key.record s.vidLen s.place.part edge) with
      | none => rfl
      | some raw =>
        exact absurd (Key.kind_record ..) (hfirst _ (s.head?_dropWhile_isLock hraw hbare))
    simp only [indexKeys, hnone]
    exact ⟨by simp, hdeferred⟩
  · -- it does, and its row is the one that was decoded
    obtain ⟨rfl, hraw⟩ := s.eq_record_of_found hsplit hkey
    simp only [indexKeys, hraw]
    refine ⟨fun k hk => ?_, hdeferred⟩
    rw [hremoved, List.mem_append, List.mem_append]
    exact .inl (.inr hk)

/-- Keys of the log never go. -/
theorem head?_of_mem_removedKeys_edgeSteps (h : (s.keysPlan edge (s.found c edge)).error = none)
    {k : Bytes} (hk : k ∈ Step.removedKeys (s.edgeSteps c edge)) :
    k.head? ≠ some Key.operationTag := by
  rcases of_mem_removedKeys_edgeSteps h hk with hpre | hkey
  · rw [Key.head?_of_edgePrefix hpre]
    decide
  · rw [head?_of_mem_indexKeys hkey]
    decide

/-- The removed keys are those below the prefixes, as far as they are stored, and index entries. -/
theorem of_mem_removedKeys {edges : List Edge}
    (hplan : ∀ e ∈ edges, (s.keysPlan e (s.found c e)).error = none) {k : Bytes}
    (hk : k ∈ Step.removedKeys (edges.flatMap (s.edgeSteps c))) :
    ∃ e ∈ edges, Key.edgePrefix s.vidLen s.place.part e <+: k ∨ k ∈ s.indexKeys .normal c e := by
  obtain ⟨e, he, hk⟩ := Step.mem_removedKeys_flatMap.1 hk
  exact ⟨e, he, of_mem_removedKeys_edgeSteps (hplan e he) hk⟩

theorem head?_of_mem_removedKeys {edges : List Edge}
    (hplan : ∀ e ∈ edges, (s.keysPlan e (s.found c e)).error = none) {k : Bytes}
    (hk : k ∈ Step.removedKeys (edges.flatMap (s.edgeSteps c))) :
    k.head? ≠ some Key.operationTag := by
  obtain ⟨e, he, hk⟩ := Step.mem_removedKeys_flatMap.1 hk
  exact head?_of_mem_removedKeys_edgeSteps (hplan e he) hk

/-- Just index entries of the stored records are deferred. -/
theorem of_mem_deferredKeys {edges : List Edge}
    (hplan : ∀ e ∈ edges, (s.keysPlan e (s.found c e)).error = none) {k : Bytes}
    (hk : k ∈ Step.deferredKeys (edges.flatMap (s.edgeSteps c))) :
    ∃ e ∈ edges, k ∈ s.indexKeys .rebuilding c e := by
  rw [Step.deferredKeys_flatMap, List.mem_flatMap] at hk
  obtain ⟨e, he, hk⟩ := hk
  refine ⟨e, he, ?_⟩
  rw [edgeSteps] at hk
  rcases s.keysPlan_keys (hplan e he) with
    ⟨-, -, hdeferred⟩ | ⟨locks, key, raw, rest, hsplit, hkey, -, hdeferred⟩
  · simp [hdeferred] at hk
  · obtain ⟨rfl, hraw⟩ := s.eq_record_of_found hsplit hkey
    rw [indexKeys, hraw]
    rwa [hdeferred] at hk

end EdgeSteps

/-! ### Plans of several edges -/

section Plans

variable {s : Scene} {τ : Type u} {store : Store τ}

/-- Planning changes nothing but what scans are set to fail. -/
theorem edgePlan_store (s : Scene) (store : Store τ) (edge : Edge) :
    ∃ faults, (s.edgePlan store edge).1 = { store with scanFaults := faults } := by
  rw [edgePlan]
  split
  · exact ⟨_, rfl⟩
  · simp only [Store.scan]
    split
    · exact ⟨_, rfl⟩
    · exact ⟨_, rfl⟩

theorem plan_store (s : Scene) (store : Store τ) (edges : List Edge) :
    ∃ faults, (s.plan store edges).1 = { store with scanFaults := faults } := by
  induction edges generalizing store with
  | nil => exact ⟨_, rfl⟩
  | cons edge edges ih =>
    obtain ⟨faults, hfaults⟩ := s.edgePlan_store store edge
    rw [plan]
    cases herror : (s.edgePlan store edge).2.error with
    | some e => exact ⟨faults, by simp [herror, hfaults]⟩
    | none =>
      obtain ⟨faults', hfaults'⟩ := ih (s.edgePlan store edge).1
      refine ⟨faults', ?_⟩
      simp only [herror, Option.isSome_none, Bool.false_eq_true, if_false]
      rw [hfaults', hfaults]

/-- What is known of an edge whose plan does not fail. -/
theorem edgePlan_of_ok {edge : Edge} (h : (s.edgePlan store edge).2.error = none) :
    edge.hasWidth s.vidLen = true ∧ (s.edgePlan store edge).1 = store ∧
      ∃ c, store.contents s.place = .ok c ∧
        (s.keysPlan edge (s.found c edge)).error = none ∧
        (s.edgePlan store edge).2.steps = s.edgeSteps c edge := by
  rw [edgePlan] at h ⊢
  by_cases hwidth : edge.hasWidth s.vidLen = true
  · simp only [widthError?, if_pos hwidth, Store.scan] at h ⊢
    cases hfault : store.scanFaults.get? s.place with
    | some code => simp [hfault, Plan.andThen, Plan.note, Plan.fail] at h
    | none =>
      simp only [hfault] at h ⊢
      cases hc : store.contents s.place with
      | error code => simp [hc, Except.map, Plan.andThen, Plan.note, Plan.fail] at h
      | ok c =>
        simp only [hc, Except.map] at h ⊢
        obtain ⟨-, herror, hsteps⟩ := Plan.steps_andThen h
        exact ⟨hwidth, trivial, c, rfl, herror, hsteps⟩
  · simp [widthError?, hwidth, Plan.fail] at h

/-- A plan that does not fail consists of the steps for each edge. -/
theorem plan_of_ok {edges : List Edge} (h : (s.plan store edges).2.error = none) :
    (s.plan store edges).1 = store ∧
      (∀ edge ∈ edges, (s.edgePlan store edge).2.error = none) ∧
      (s.plan store edges).2.steps = edges.flatMap fun edge => (s.edgePlan store edge).2.steps := by
  induction edges with
  | nil => simp [plan, Plan.done]
  | cons edge edges ih =>
    rw [plan] at h ⊢
    cases herror : (s.edgePlan store edge).2.error with
    | some e => simp [herror] at h
    | none =>
      obtain ⟨-, hstore, -⟩ := edgePlan_of_ok herror
      simp only [herror, Option.isSome_none, Bool.false_eq_true, if_false, hstore] at h ⊢
      obtain ⟨-, hrest, hsteps⟩ := Plan.steps_andThen h
      obtain ⟨hstore', hall, hsteps'⟩ := ih hrest
      refine ⟨hstore', ?_, ?_⟩
      · intro e he
        rcases List.mem_cons.1 he with rfl | he
        · exact herror
        · exact hall e he
      · rw [hsteps, hsteps', List.flatMap_cons]

/-- In a partition that is here, what is planned depends on its contents only. -/
theorem plan_steps {edges : List Edge} {c : Contents} (hc : store.contents s.place = .ok c)
    (h : (s.plan store edges).2.error = none) :
    (∀ edge ∈ edges, edge.hasWidth s.vidLen = true ∧
        (s.keysPlan edge (s.found c edge)).error = none) ∧
      (s.plan store edges).2.steps = edges.flatMap (s.edgeSteps c) := by
  obtain ⟨-, hall, hsteps⟩ := plan_of_ok h
  have hedge : ∀ edge ∈ edges, edge.hasWidth s.vidLen = true ∧
      (s.keysPlan edge (s.found c edge)).error = none ∧
      (s.edgePlan store edge).2.steps = s.edgeSteps c edge := by
    intro edge hedge
    obtain ⟨hwidth, -, c', hc', herror, hsteps⟩ := edgePlan_of_ok (hall edge hedge)
    obtain rfl : c = c' := by
      rw [hc] at hc'
      exact Except.ok.inj hc'
    exact ⟨hwidth, herror, hsteps⟩
  refine ⟨fun edge he => ⟨(hedge edge he).1, (hedge edge he).2.1⟩, ?_⟩
  rw [hsteps]
  exact List.flatMap_congr fun edge he => (hedge edge he).2.2

end Plans

end Scene

end EdgeDeletion
