/-
Names of held edges.

Where the options say so, a line for the log names the edge that another request holds, and so does
the message of the failure.  Only its text is written.  It is enough: a request is told only
edges of its own to be held, and not before their widths were looked at.

* `names_work` — what is named in a turn is an edge of the turn with vertices of the right width;
* `names_process`, `names_processDeferred` — the same for the edges of a request;
* `texts_name_edges` — in a space, no two edges that are named have the same text.
-/
import EdgeDeletion.Proofs.EdgeTexts
import EdgeDeletion.Proofs.Exclusion
import EdgeDeletion.Proofs.Moments
import EdgeDeletion.Proofs.RowsUnread

namespace EdgeDeletion

/-- A line that tells an edge to be held names none, or one that may be named for the partition. -/
def Event.Names (held : PartId → EdgeId → Prop) : Event → Prop
  | .log (.lockConflict part (some edge)) => held part edge
  | _ => True

namespace Event

variable {held held' : PartId → EdgeId → Prop} {e : Event}

theorem names_of_noConflict (h : e.isConflict = false) : e.Names held := by
  cases e with
  | log l =>
    cases l with
    | lockConflict part edge => exact absurd h nofun
    | _ => trivial
  | _ => trivial

theorem IsRemark.names (h : e.IsRemark) : e.Names held := names_of_noConflict h.noConflict

theorem Names.mono (h : e.Names held) (hsub : ∀ part edge, held part edge → held' part edge) :
    e.Names held' := by
  cases e with
  | log l =>
    cases l with
    | lockConflict part edge =>
      cases edge with
      | none => trivial
      | some edge => exact hsub part edge h
    | _ => trivial
  | _ => trivial

end Event

theorem Scene.isConflict_of_mem_plan {τ : Type} {s : Scene} {store : Store τ} {edges : List Edge}
    {e : Event} (he : e ∈ (s.plan store edges).2.trace) : e.isConflict = false := by
  have hshows := Scene.shows_plan he
  cases e with
  | log l =>
    cases l with
    | lockConflict part edge => exact absurd hshows id
    | _ => rfl
  | _ => rfl

/-- Whether an edge may be named for a partition: it is one of the turn there, and its vertices have
the width of the space. -/
def Turn.MayName (t : Turn) (part : PartId) (i : EdgeId) : Prop :=
  i.place = t.place ∧ part = t.place.part ∧ i.edge ∈ t.edges ∧ i.edge.hasWidth t.vidLen = true

namespace Node

variable {n : Node} {t : Turn} {r : DeleteRequest}

theorem names_deletePlain (n : Node) (t : Turn) (held : PartId → EdgeId → Prop) :
    Adds (Event.Names held) n (n.deletePlain t.request t.place t.vidLen t.edges) := by
  rw [deletePlain]
  cases t.edges.findSome? (Scene.widthError? t.vidLen) with
  | some e =>
    exact (n.adds_emit trivial).trans <|
      (adds_report ..).mono fun _ => Event.IsRemark.names
  | none =>
    exact (n.adds_emit trivial).trans <|
      (adds_submitPart ..).mono fun _ => Event.IsRemark.names

/-- What is told to be held is one of the edges that the turn wanted to claim, after a plan that
has looked at the widths of all of them. -/
theorem mayName_of_claim {s : LockTable EdgeId} {i : EdgeId} (hplan : (n.planOf t).error = none)
    (hclaim : s.claim t.ids = .error i) : t.MayName t.place.part i := by
  have hmem := (((s.decides t.ids).refused i).1 hclaim).1
  obtain ⟨e, he, rfl⟩ := List.mem_map.1 hmem
  exact ⟨rfl, rfl, he, ((Scene.plan_stored hplan).1 e he).1⟩

theorem names_deleteIndexed (n : Node) (t : Turn) : Adds (Event.Names t.MayName) n
    (n.deleteIndexed t.request t.place t.vidLen t.indexes t.edges) := by
  obtain ⟨a, ha⟩ : ∃ a, a = { n with
      store := ((n.scene t).plan n.store t.edges).1
      sequencer := (n.opsOf t).2 }.track.emitAll (n.planOf t).trace := ⟨_, rfl⟩
  have hplan : Adds (Event.Names t.MayName) n a := by
    rw [ha]
    exact adds_emitAll (track { n with store := _, sequencer := _ }) fun e he =>
      Event.names_of_noConflict (Scene.isConflict_of_mem_plan he)
  rw [deleteIndexed_of_planned n t ha]
  cases herror : (n.planOf t).error with
  | some e =>
    exact hplan.trans <| (a.adds_emit trivial).trans <|
      (adds_refusal ..).mono fun _ => Event.IsRemark.names
  | none =>
    rw [claim]
    cases hclaim : a.locks.claim t.ids with
    | error edge =>
      have hnamed : t.MayName t.place.part edge := mayName_of_claim herror hclaim
      refine hplan.trans <| (a.adds_emit trivial).trans <| (adds_emit _ ?_).trans <|
        (adds_refusal ..).mono fun _ => Event.IsRemark.names
      show Event.Names t.MayName (.log (.lockConflict _ (if _ then _ else _)))
      split
      · exact hnamed
      · trivial
    | ok claimed =>
      exact hplan.trans <| (adds_emit { a with locks := _ } (e := .signal _) trivial).trans <|
        (adds_emit _ (e := .call (.batch ..)) trivial).trans <|
          (adds_submitPart ..).mono fun _ => Event.IsRemark.names

theorem names_work (n : Node) (t : Turn) : Adds (Event.Names t.MayName) n (n.work t) := by
  rw [work]
  by_cases hindexes : t.indexes.isEmpty = true
  · rw [if_pos hindexes]
    exact n.names_deletePlain t _
  · rw [if_neg hindexes]
    exact n.names_deleteIndexed t

/-- Whether an edge may be named by a request for a partition: it is one of the edges there, with
vertices of the width that the catalog tells of. -/
def MayName (n : Node) (r : DeleteRequest) (part : PartId) (i : EdgeId) : Prop :=
  i.place = ⟨r.space, part⟩ ∧ (∃ edges, (part, edges) ∈ r.parts.entries ∧ i.edge ∈ edges) ∧
    ∃ vidLen, n.catalog.vidLen r.space = .ok vidLen ∧ i.edge.hasWidth vidLen = true

theorem MayName.of_turn {ts : List Turn} (hturns : n.turns r = .ok ts) (ht : t ∈ ts)
    {part : PartId} {i : EdgeId} (h : t.MayName part i) : n.MayName r part i := by
  obtain ⟨vidLen, indexes, hvidLen, -, rfl⟩ := eq_of_turns hturns
  obtain ⟨p, hp, rfl⟩ := List.mem_map.1 ht
  obtain ⟨hplace, rfl, hedge, hwidth⟩ := h
  exact ⟨hplace, ⟨p.2, hp, hedge⟩, vidLen, hvidLen, hwidth⟩

theorem names_workAll (n : Node) {ts : List Turn} {held : PartId → EdgeId → Prop}
    (h : ∀ t ∈ ts, ∀ part i, t.MayName part i → held part i) :
    Adds (Event.Names held) n (n.workAll ts) := by
  induction ts generalizing n with
  | nil => exact .of_eq rfl
  | cons t ts ih =>
    obtain ⟨ht, hts⟩ := List.forall_mem_cons.1 h
    have hfirst : Adds (Event.Names held) n (n.work t) :=
      (n.names_work t).mono fun e he => he.mono ht
    exact hfirst.trans (ih (n.work t) hts)

/-- A request is told only edges of its own to be held. -/
theorem names_process (n : Node) (r : DeleteRequest) :
    Adds (Event.Names (n.MayName r)) n (n.process r).2 := by
  have hopened : Adds (Event.Names (n.MayName r)) n (n.opened r) := by
    refine n.adds_opened r (fun _ => Event.IsRemark.names) fun e he => ?_
    rcases n.of_mem_preface he with rfl | rfl | ⟨error, rfl | rfl⟩ <;> trivial
  rw [process_eq]
  cases hturns : n.turns r with
  | error e => exact hopened.trans ((adds_failAll ..).mono fun _ => Event.IsRemark.names)
  | ok ts => exact hopened.trans (names_workAll _ fun t ht part i => .of_turn hturns ht)

theorem names_processDeferred (n : Node) (r : DeleteRequest) :
    Adds (Event.Names (n.MayName r)) n (n.processDeferred r).2 := by
  rw [processDeferred]
  by_cases hheld : n.store.held.isSome = true
  · rw [if_pos hheld]
    exact n.names_process r
  · rw [if_neg hheld]
    have hpaused : Adds (Event.Names (n.MayName r)) n n.pause := .of_eq rfl
    exact (hpaused.trans (n.pause.names_process r)).trans
      ((adds_resume _).mono fun _ => Event.IsRemark.names)

end Node

/-! ### Texts -/

theorem DeleteError.message_conflict_inj {i j : EdgeId}
    (h : (DeleteError.conflict i).message = (DeleteError.conflict j).message) :
    i.text = j.text := by
  have hlists : ("edge " ++ i.text ++ " is held by another request").toList
      = ("edge " ++ j.text ++ " is held by another request").toList := congrArg String.toList h
  rw [String.toList_append, String.toList_append, String.toList_append, String.toList_append]
    at hlists
  exact String.toList_inj.1 (List.append_cancel_left (List.append_cancel_right hlists))

theorem LogEntry.fields_lockConflict_inj {part part' : PartId} {i j : EdgeId}
    (h : (LogEntry.lockConflict part (some i)).fields
      = (LogEntry.lockConflict part' (some j)).fields) : part = part' ∧ i.text = j.text := by
  simp only [fields, List.cons.injEq, Prod.mk.injEq, true_and, and_true] at h
  exact ⟨UInt32.toNat_inj.1 (Text.natural_inj h.1), h.2⟩

/-- **A text names one edge.**  Among edges with vertices of one width, whatever their bytes are,
the text of an identity, the message that it is held and the line of the log that names it are those
of no other edge.  The lines that are added by a request name only edges of its own with vertices of
the width of the space, so those of requests to one space, if its width is the same for both,
name one edge by one text. -/
theorem texts_name_edges :
    (∀ (vidLen : Nat) (i j : EdgeId), i.edge.hasWidth vidLen = true →
      j.edge.hasWidth vidLen = true →
      (i.text = j.text → i = j) ∧
      ((DeleteError.conflict i).message = (DeleteError.conflict j).message → i = j) ∧
      ∀ part part', (LogEntry.lockConflict part (some i)).fields
        = (LogEntry.lockConflict part' (some j)).fields → part = part' ∧ i = j) ∧
    (∀ (n : Node) (r : DeleteRequest),
      Node.Adds (Event.Names (n.MayName r)) n (n.process r).2 ∧
      Node.Adds (Event.Names (n.MayName r)) n (n.processDeferred r).2) ∧
    ∀ (n m : Node) (r q : DeleteRequest) (part part' : PartId) (i j : EdgeId),
      n.MayName r part i → m.MayName q part' j →
      n.catalog.vidLen r.space = m.catalog.vidLen q.space → i.text = j.text → i = j := by
  refine ⟨fun vidLen i j hi hj => ⟨EdgeId.text_inj hi hj, fun h => ?_, fun part part' h => ?_⟩,
    fun n r => ⟨n.names_process r, n.names_processDeferred r⟩,
    fun n m r q part part' i j hi hj hsame htext => ?_⟩
  · exact EdgeId.text_inj hi hj (DeleteError.message_conflict_inj h)
  · obtain ⟨hpart, htext⟩ := LogEntry.fields_lockConflict_inj h
    exact ⟨hpart, EdgeId.text_inj hi hj htext⟩
  · obtain ⟨-, -, vidLen, hvidLen, hi⟩ := hi
    obtain ⟨-, -, vidLen', hvidLen', hj⟩ := hj
    obtain rfl : vidLen = vidLen' := Except.ok.inj (hvidLen.symm.trans (hsame.trans hvidLen'))
    exact EdgeId.text_inj hi hj htext

/-- Edges from vertices with colons and digits in their names. -/
def colonEdges : EdgeId × EdgeId :=
  (⟨⟨1, 1⟩, ⟨[97, 58, 49], 2, 3, [98, 58, 52]⟩⟩, ⟨⟨1, 1⟩, ⟨[97, 58, 49], 2, 3, [98, 58, 92]⟩⟩)

theorem texts_name_colon_edges :
    colonEdges.1.edge.hasWidth 3 = true ∧ colonEdges.2.edge.hasWidth 3 = true ∧
      colonEdges.1.text ≠ colonEdges.2.text := by
  have hfirst : colonEdges.1.edge.hasWidth 3 = true := by decide
  have hsecond : colonEdges.2.edge.hasWidth 3 = true := by decide
  refine ⟨hfirst, hsecond, fun h => ?_⟩
  have heq := (texts_name_edges.1 3 _ _ hfirst hsecond).1 h
  exact absurd heq (by decide)

/-- Where the widths differ, colons within a vertex may be taken for those between the parts. -/
example :
    (⟨⟨1, 1⟩, ⟨[97], 1, 2, [98, 58, 51, 58, 52, 58, 99]⟩⟩ : EdgeId).text
      = (⟨⟨1, 1⟩, ⟨[97, 58, 49, 58, 50, 58, 98], 3, 4, [99]⟩⟩ : EdgeId).text := by decide +kernel

end EdgeDeletion
