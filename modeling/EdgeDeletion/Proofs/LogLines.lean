/-
Lines for the log of deferred removals.

The log of a partition are the entries under keys with the tag of operations.  A turn creates
such keys from the numbers that it draws, and its write stores lines under them when it is
applied.

* `logSince_of_sameLog` — lines that are stored under ascending new keys are what is new in
  the log;
* `KeepsLog.sameLog` — the log gains the lines of a write that is applied;
* `keys_submitted` — a turn submits lines under the keys that it has created.
-/
import EdgeDeletion.Proofs.Draining

namespace EdgeDeletion

open KeyOrder (before)

/-! ### The log of a partition -/

namespace Contents

/-- The entries of the log, in key order. -/
def log (c : Contents) : List (Bytes × Bytes) :=
  c.entries.filter fun e => e.1.head? = some Key.operationTag

/-- The entries of the log under keys that earlier contents did not have. -/
def logSince (c earlier : Contents) : List (Bytes × Bytes) :=
  c.log.filter fun e => earlier.get? e.1 = none

/-- Contents with entries stored one after the other. -/
def putAll (c : Contents) (lines : List (Bytes × Bytes)) : Contents :=
  lines.foldl (fun c line => c.insert line.1 line.2) c

/-- Contents with the same entries in the log. -/
def SameLog (c d : Contents) : Prop :=
  ∀ k, k.head? = some Key.operationTag → c.get? k = d.get? k

variable {c d c' : Contents}

theorem SameLog.refl (c : Contents) : SameLog c c := fun _ _ => rfl

theorem SameLog.trans {e : Contents} (h : SameLog c d) (h' : SameLog d e) : SameLog c e :=
  fun k hk => (h k hk).trans (h' k hk)

theorem SameLog.insert (h : SameLog c d) (k v : Bytes) : SameLog (c.insert k v) (d.insert k v) := by
  intro k' hk'
  rw [OrderedMap.get?_insert, OrderedMap.get?_insert, h k' hk']

/-- Storing a value under a key outside the log keeps the log. -/
theorem sameLog_insert {k : Bytes} (hk : k.head? ≠ some Key.operationTag) (v : Bytes) :
    SameLog (c.insert k v) c := by
  intro k' hk'
  have hne : k' ≠ k := fun heq => hk (heq ▸ hk')
  rw [OrderedMap.get?_insert, if_neg hne]

theorem sameLog_erase {k : Bytes} (hk : k.head? ≠ some Key.operationTag) :
    SameLog (c.erase k) c := by
  intro k' hk'
  have hne : k' ≠ k := fun heq => hk (heq ▸ hk')
  rw [OrderedMap.get?_erase, if_neg hne]

theorem putAll_append (c : Contents) (lines lines' : List (Bytes × Bytes)) :
    c.putAll (lines ++ lines') = (c.putAll lines).putAll lines' := List.foldl_append

theorem SameLog.putAll (h : SameLog c d) (lines : List (Bytes × Bytes)) :
    SameLog (c.putAll lines) (d.putAll lines) := by
  induction lines generalizing c d with
  | nil => exact h
  | cons line lines ih => exact ih (h.insert line.1 line.2)

/-- Under different keys all lines are kept. -/
theorem get?_putAll {lines : List (Bytes × Bytes)} (hne : lines.Pairwise fun a b => a.1 ≠ b.1)
    {k v : Bytes} : (c.putAll lines).get? k = some v ↔
      (k, v) ∈ lines ∨ (∀ line ∈ lines, k ≠ line.1) ∧ c.get? k = some v := by
  induction lines generalizing c with
  | nil => simp [putAll]
  | cons line lines ih =>
    obtain ⟨hfirst, hrest⟩ := List.pairwise_cons.1 hne
    have hih := ih (c := c.insert line.1 line.2) hrest
    rw [OrderedMap.get?_insert] at hih
    refine Iff.trans hih ?_
    obtain ⟨key, value⟩ := line
    by_cases hk : k = key
    · subst hk
      -- no later line has the key of the first one
      have hnone : (k, v) ∉ lines := fun hmem => hfirst _ hmem rfl
      rw [if_pos rfl, Option.some.injEq]
      constructor
      · rintro (hmem | ⟨-, rfl⟩)
        · exact absurd hmem hnone
        · exact .inl (List.mem_cons_self ..)
      · rintro (hmem | ⟨hne, -⟩)
        · obtain heq := (List.mem_cons.1 hmem).resolve_right hnone
          exact .inr ⟨hfirst, (congrArg Prod.snd heq).symm⟩
        · exact absurd rfl (hne _ (List.mem_cons_self ..))
    · simp [hk]

/-- What new lines of the log lead to, if they ascend. -/
theorem logSince_of_sameLog {lines : List (Bytes × Bytes)} (hsame : SameLog c' (c.putAll lines))
    (htags : ∀ line ∈ lines, line.1.head? = some Key.operationTag)
    (hascend : lines.Pairwise fun a b => before a.1 b.1 = true)
    (hnew : ∀ line ∈ lines, c.get? line.1 = none) : c'.logSince c = lines := by
  have hne : lines.Pairwise fun a b => a.1 ≠ b.1 :=
    hascend.imp fun hab heq => by simp [heq, KeyOrder.irrefl] at hab
  refine OrderedMap.eq_of_mem_iff ((c'.ordered.filter _).filter _) hascend ?_
  rintro ⟨k, v⟩
  simp only [logSince, log, List.mem_filter, decide_eq_true_eq, ← OrderedMap.get?_eq_some_iff]
  constructor
  · rintro ⟨⟨hv, htag⟩, hnone⟩
    rw [hsame k htag, get?_putAll hne, hnone] at hv
    exact hv.resolve_right (by simp)
  · intro hmem
    have htag := htags _ hmem
    refine ⟨⟨?_, htag⟩, hnew _ hmem⟩
    rw [hsame k htag, get?_putAll hne]
    exact .inl hmem

/-- What was in the log stays there. -/
theorem get?_of_sameLog {lines : List (Bytes × Bytes)} (hsame : SameLog c' (c.putAll lines))
    (hascend : lines.Pairwise fun a b => before a.1 b.1 = true)
    (hnew : ∀ line ∈ lines, c.get? line.1 = none) {k v : Bytes}
    (htag : k.head? = some Key.operationTag) (hv : c.get? k = some v) : c'.get? k = some v := by
  have hne : lines.Pairwise fun a b => a.1 ≠ b.1 :=
    hascend.imp fun hab heq => by simp [heq, KeyOrder.irrefl] at hab
  rw [hsame k htag, get?_putAll hne]
  refine .inr ⟨?_, hv⟩
  rintro line hline rfl
  rw [hnew line hline] at hv
  simp at hv

end Contents

/-! ### What writes do to the log -/

/-- The entry that an operation stores. -/
def BatchOp.put? : BatchOp → Option (Bytes × Bytes)
  | .put key value => some (key, value)
  | .remove _ => none

namespace Contents

variable {c : Contents}

/-- Operations that remove nothing from the log store their entries there. -/
theorem sameLog_apply {ops : List BatchOp}
    (hkeeps : ∀ key, .remove key ∈ ops → key.head? ≠ some Key.operationTag) :
    SameLog (c.apply ops) (c.putAll (ops.filterMap BatchOp.put?)) := by
  induction ops generalizing c with
  | nil => exact .refl c
  | cons op ops ih =>
    have hrest := fun c => ih (c := c) fun key hkey => hkeeps key (List.mem_cons_of_mem _ hkey)
    cases op with
    | put key value => exact hrest (c.insert key value)
    | remove key =>
      exact (hrest (c.erase key)).trans
        ((sameLog_erase (hkeeps key (List.mem_cons_self ..))).putAll _)

/-- Operations outside the log keep it. -/
theorem sameLog_apply_of_spared {ops : List BatchOp}
    (hspares : ∀ op ∈ ops, op.key.head? ≠ some Key.operationTag) : SameLog (c.apply ops) c := by
  induction ops generalizing c with
  | nil => exact .refl c
  | cons op ops ih =>
    obtain ⟨hop, hrest⟩ := List.forall_mem_cons.1 hspares
    cases op with
    | put key value => exact (ih (c := c.insert key value) hrest).trans (sameLog_insert hop value)
    | remove key => exact (ih (c := c.erase key) hrest).trans (sameLog_erase hop)

end Contents

namespace Write

/-- The lines that a write of a partition has for the log. -/
def lines (w : Write Submitter) : List (Bytes × Bytes) :=
  match w.token.slot?, Store.opsOf w.change with
  | some _, .ok ops => ops.filterMap BatchOp.put?
  | _, _ => []

/-- The keys of these lines, each with its partition. -/
def keys (w : Write Submitter) : List (Place × Bytes) := w.lines.map fun line => (w.place, line.1)

/-- A write removes nothing from the log, and stores there only if it is one of a partition. -/
def KeepsLog (w : Write Submitter) : Prop :=
  ∀ ops, Store.opsOf w.change = .ok ops → ∀ op ∈ ops, op.key.head? = some Key.operationTag →
    w.token.slot?.isSome = true ∧ ∃ key value, op = .put key value

variable {w : Write Submitter} {ops : List BatchOp}

theorem lines_of_ops {l : Slot} (hslot : w.token.slot? = some l)
    (hops : Store.opsOf w.change = .ok ops) : w.lines = ops.filterMap BatchOp.put? := by
  rw [lines, hslot, hops]

theorem mem_keys (hslot : w.token.slot?.isSome = true) (hops : Store.opsOf w.change = .ok ops)
    {key value : Bytes} (hput : .put key value ∈ ops) : (w.place, key) ∈ w.keys := by
  obtain ⟨l, hslot⟩ := Option.isSome_iff_exists.1 hslot
  rw [keys, lines_of_ops hslot hops]
  exact List.mem_map.2 ⟨(key, value), List.mem_filterMap.2 ⟨_, hput, rfl⟩, rfl⟩

theorem lines_of_outside (hslot : w.token.slot? = none) : w.lines = [] := by
  rw [lines, hslot]

/-- The log gains the lines of a write that is applied. -/
theorem KeepsLog.sameLog (h : w.KeepsLog) (hops : Store.opsOf w.change = .ok ops) (c : Contents) :
    Contents.SameLog (c.apply ops) (c.putAll w.lines) := by
  cases hslot : w.token.slot? with
  | none =>
    rw [lines_of_outside hslot]
    refine Contents.sameLog_apply_of_spared fun op hop htag => ?_
    have hsome := (h ops hops op hop htag).1
    simp [hslot] at hsome
  | some l =>
    rw [lines_of_ops hslot hops]
    refine Contents.sameLog_apply fun key hkey htag => ?_
    obtain ⟨-, _, _, hput⟩ := h ops hops _ hkey htag
    simp at hput

end Write

/-! ### Keys that are created -/

/-- Lines for the log have the numbers that were drawn for them. -/
theorem Step.puts_toOps (part : PartId) (q : Sequencer) (steps : List Step) :
    (toOps part q steps).1.filterMap BatchOp.put?
      = ((q.drawMany (deferredKeys steps).length).1.map (Key.deferral part)).zip
          (deferredKeys steps) := by
  induction steps generalizing q with
  | nil => rfl
  | cons step steps ih =>
    cases step with
    | deferral key => exact congrArg ((Key.deferral part q.next, key) :: ·) (ih q.draw.2)
    | _ => exact ih q

/-- The key of a deferred removal in a partition. -/
def Key.deferralAt (d : Place × UInt64) : Place × Bytes := (d.1, deferral d.1.part d.2)

namespace Node

variable {n : Node} {t : Turn} {w : Write Submitter}

/-- The keys of deferred removals that a turn creates, whether its plan fails or not. -/
def createdIn (n : Node) (t : Turn) : List (Place × Bytes) :=
  if t.indexes.isEmpty then []
  else ((n.opsOf t).1.filterMap BatchOp.put?).map fun line => (t.place, line.1)

theorem createdIn_eq (n : Node) (t : Turn) : ∃ draws : List (Place × UInt64),
    n.createdIn t = draws.map Key.deferralAt ∧
      n.sequencer.drawMany draws.length = (draws.map Prod.snd, (n.planned t).sequencer) := by
  rw [createdIn, planned]
  by_cases hindexes : t.indexes.isEmpty = true
  · rw [if_pos hindexes, if_pos hindexes]
    exact ⟨[], rfl, rfl⟩
  · rw [if_neg hindexes, if_neg hindexes, opsOf, Step.puts_toOps]
    obtain ⟨count, hcount⟩ : ∃ count, count = (Step.deferredKeys (n.planOf t).steps).length :=
      ⟨_, rfl⟩
    have hlen := n.sequencer.length_drawMany count
    refine ⟨(n.sequencer.drawMany count).1.map (t.place, ·), ?_, ?_⟩
    · have hzip : ∀ {as : List Bytes} {bs : List Bytes}, as.length = bs.length →
          (as.zip bs).map (fun line => (t.place, line.1)) = as.map (t.place, ·) := by
        intro as bs h
        have hfst : (as.zip bs).map Prod.fst = as := List.map_fst_zip (Nat.le_of_eq h)
        rw [← congrArg (List.map (t.place, ·)) hfst, List.map_map]
        rfl
      rw [← hcount, hzip (by rw [List.length_map, hlen, hcount]), List.map_map, List.map_map]
      rfl
    · have hmap : ((n.sequencer.drawMany count).1.map (t.place, ·)).map Prod.snd
          = (n.sequencer.drawMany count).1 := by
        rw [List.map_map]
        exact List.map_id _
      rw [List.length_map, hlen, hmap, Step.toOps_snd, ← hcount]

/-- A turn submits lines under the keys that it has created. -/
theorem keys_submitted (n : Node) (t : Turn) :
    ((n.submitted t).flatMap Write.keys).Sublist (n.createdIn t) := by
  have hkeys : ∀ w ∈ n.submitted t, w.keys.Sublist (n.createdIn t) := by
    intro w hw
    rw [Write.keys]
    cases hops : Store.opsOf w.change with
    | error e =>
      rw [Write.lines, slot?_of_submitted hw, hops]
      exact List.nil_sublist _
    | ok ops =>
      rw [Write.lines_of_ops (slot?_of_submitted hw) hops, place_of_submitted hw]
      rcases ops_of_submitted hw hops with ⟨-, rfl⟩ | ⟨hindexes, rfl, -⟩
      · have hnone : ((t.edges.map (Key.record t.vidLen t.place.part)).map .remove).filterMap
            BatchOp.put? = [] := by simp [BatchOp.put?]
        rw [hnone]
        exact List.nil_sublist _
      · rw [createdIn, hindexes]
        exact List.Sublist.refl _
  rcases n.submitted_eq t with hnone | ⟨w, hw⟩
  · rw [hnone]
    exact List.nil_sublist _
  · rw [hw, List.flatMap_singleton]
    exact hkeys w (by rw [hw]; exact List.mem_singleton_self w)

/-- The write of a turn removes nothing from the log. -/
theorem keepsLog_of_submitted (hw : w ∈ n.submitted t) : w.KeepsLog := by
  intro ops hops op hop htag
  refine ⟨by rw [slot?_of_submitted hw]; rfl, ?_⟩
  cases op with
  | put key value => exact ⟨key, value, rfl⟩
  | remove key =>
    have htag : key.head? = some Key.operationTag := htag
    rcases ops_of_submitted hw hops with ⟨-, rfl⟩ | ⟨-, rfl, hsteps, hplan⟩
    · simp only [List.map_map, List.mem_map, Function.comp_apply, BatchOp.remove.injEq] at hop
      obtain ⟨e, -, rfl⟩ := hop
      rw [Key.head?_record] at htag
      exact absurd htag (by decide)
    · have hremoved := Step.remove_mem_toOps hop
      rw [hsteps] at hremoved
      exact absurd htag (Scene.head?_of_mem_removedKeys hplan hremoved)

end Node

namespace Source

/-- The keys of deferred removals that are created for the writes of a source. -/
def created : Source → List (Place × Bytes)
  | .turn n t => n.createdIn t
  | .driver .. => []

theorem keys_writes (src : Source) : (src.writes.flatMap Write.keys).Sublist src.created := by
  cases src with
  | turn n t => exact n.keys_submitted t
  | driver name place change => exact List.Sublist.refl _

theorem keepsLog_of_slot {src : Source} {w : Write Submitter} (hw : w ∈ src.writes)
    (hslot : w.token.slot?.isSome = true) : w.KeepsLog := by
  cases src with
  | turn n t => exact Node.keepsLog_of_submitted hw
  | driver name place change =>
    rw [List.mem_singleton.1 hw] at hslot
    simp [Submitter.slot?] at hslot

end Source

namespace Session

/-- The keys of deferred removals that are created in a run, in order. -/
def created (s : Session) (actions : List Action) : List (Place × Bytes) :=
  (s.sources actions).flatMap Source.created

end Session

end EdgeDeletion
