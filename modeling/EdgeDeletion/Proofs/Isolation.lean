/-
What the writes held back change, and what is claimed meanwhile.

A write that is held back was planned from contents that other such writes change before
it is applied.  The claims keep this from showing: in a space with indexes, the writes
held back change nothing below the prefix of an edge that nobody has claimed, and a
claimed edge cannot make a plan fail, now or later (`Isolated`).

* `landed_work_cases` — what a turn changes in the end;
* `isolated_work` — a turn keeps a node isolated.
-/
import EdgeDeletion.Proofs.Effects
import EdgeDeletion.Proofs.Resumption

namespace EdgeDeletion

universe u

/-- Among the keys of edges a write takes those away that its change removes, and no others. -/
theorem Store.get?_stored_apply {τ : Type u} {s : Store τ} {w : Write τ} {removed : List Bytes}
    {lines : List (UInt64 × Bytes)} (h : s.writeFaults = .empty)
    (hdoes : w.change.Does w.place.part removed lines) (place : Place) {k : Bytes}
    (hk : k.head? = some Key.edgeTag) :
    ((s.apply w).1.stored place).get? k
      = if place = w.place ∧ (s.apply w).2.result = .ok () ∧ k ∈ removed then none
        else (s.stored place).get? k := by
  rcases apply_cases h hdoes with ⟨hsame, hresult⟩ | ⟨hresult, -, hparts⟩
  · rw [hsame, if_neg fun hall => hresult hall.2.1]
  · rw [hresult, hparts]
    simp only [true_and]
    by_cases hplace : place = w.place
    · subst hplace
      have hlog : ∀ line ∈ lines, k ≠ Key.deferral w.place.part line.1 := by
        intro line _
        exact Key.ne_deferral_of_head? (by rw [hk]; decide) _ _
      simp only [stored, OrderedMap.get?_insert, if_true, true_and, Option.getD_some]
      rw [Contents.get?_withLog_of_ne hlog, Contents.get?_without]
    · simp only [stored, OrderedMap.get?_insert, hplace, false_and, if_false]

namespace Node

variable {n m : Node} {t : Turn}

/-! ### Turns in the end -/

/-- The write of a turn fails without a trace, or its keys go and its lines are added. -/
theorem landed_work_cases (hf : n.Faultless) {change : Change} {edges : Nat} {hold : Option Hold}
    (h : n.verdict t = .write change edges hold) :
    ((n.work t).store.landed = n.store.landed ∧
        (n.store.landed.apply (t.write change edges hold)).2.result ≠ .ok ()) ∨
      ((n.store.landed.apply (t.write change edges hold)).2.result = .ok () ∧
        ∃ c, n.store.landed.parts.get? t.place = some c ∧
          ∀ place, (n.work t).store.landed.parts.get? place
            = if place = t.place then
                some ((c.without (n.removedIn t)).withLog t.place.part
                  ((n.numbersIn t).zip (n.deferredIn t)))
              else n.store.landed.parts.get? place) := by
  obtain ⟨hdoes, -, -⟩ := does_of_verdict h
  -- the write by a name of its own, so that it is not unfolded
  obtain ⟨w, hw⟩ : ∃ w, w = t.write change edges hold := ⟨_, rfl⟩
  have hplace : w.place = t.place := by rw [hw]; rfl
  have hdoes : w.change.Does w.place.part (n.removedIn t)
      ((n.numbersIn t).zip (n.deferredIn t)) := by
    rw [hw]
    exact hdoes
  have hlanded : (n.work t).store.landed = (n.store.landed.apply w).1 := by
    rw [landed_work hf, h, hw]
  rw [hlanded, ← hw]
  rcases Store.apply_cases n.store.landed_writeFaults hdoes with
    ⟨hsame, hfails⟩ | ⟨hok, hhere, hparts⟩
  · exact .inl ⟨hsame, hfails⟩
  · rw [hplace] at hhere hparts
    refine .inr ⟨hok, _, Store.contents_eq_ok_iff.1 hhere, fun place => ?_⟩
    rw [hparts]
    exact OrderedMap.get?_insert ..

/-- Of the keys of edges a turn takes away in the end what its write removes, if that succeeds. -/
theorem get?_stored_landed_work (hf : n.Faultless) {change : Change} {edges : Nat}
    {hold : Option Hold} (h : n.verdict t = .write change edges hold) (place : Place) {k : Bytes}
    (hk : k.head? = some Key.edgeTag) :
    ((n.work t).store.landed.stored place).get? k
      = if place = t.place ∧ (n.store.landed.apply (t.write change edges hold)).2.result = .ok () ∧
          k ∈ n.removedIn t then none
        else (n.store.landed.stored place).get? k := by
  obtain ⟨hdoes, -, -⟩ := does_of_verdict h
  rw [landed_work hf, h]
  exact Store.get?_stored_apply (w := t.write change edges hold) n.store.landed_writeFaults hdoes
    place hk

/-! ### Turns and scenes of a node -/

/-- The second node has the catalogs and the index markers of the first one. -/
structure SetUpAs (n m : Node) : Prop where
  catalog : m.catalog = n.catalog
  indexCatalog : m.indexCatalog = n.indexCatalog
  markers : m.markers = n.markers

theorem SetUpAs.trans {l : Node} (h : n.SetUpAs m) (h' : m.SetUpAs l) : n.SetUpAs l :=
  ⟨h'.catalog.trans h.catalog, h'.indexCatalog.trans h.indexCatalog, h'.markers.trans h.markers⟩

theorem SetUpAs.symm (h : n.SetUpAs m) : m.SetUpAs n :=
  ⟨h.catalog.symm, h.indexCatalog.symm, h.markers.symm⟩

theorem setUpAs_of_quiet (h : m.quiet = n.quiet) : n.SetUpAs m :=
  ⟨congrArg (·.catalog) h, congrArg (·.indexCatalog) h, congrArg (·.markers) h⟩

theorem setUpAs_work (h : n.Faultless) (t : Turn) : n.SetUpAs (n.work t) := by
  have hwork := quiet_work_of_faultless h t
  refine ⟨(congrArg (·.catalog) hwork).trans ?_, (congrArg (·.indexCatalog) hwork).trans ?_,
    (congrArg (·.markers) hwork).trans ?_⟩
  all_goals cases n.kept? t <;> rfl

/-- Whether a space is known depends on the catalogs. -/
theorem turns_of_error {r r' : DeleteRequest} {e : DeleteError} (h : n.turns r = .error e)
    (hm : n.SetUpAs m) (hspace : r'.space = r.space) : m.turns r' = .error e := by
  rw [turns] at h ⊢
  rw [hm.catalog, hm.indexCatalog, hspace]
  cases hvidLen : n.catalog.vidLen r.space with
  | error source => simpa [hvidLen] using h
  | ok vidLen =>
    cases hindexes : (n.indexCatalog.getD n.catalog).edgeIndexes r.space with
    | error source => simpa [hvidLen, hindexes] using h
    | ok indexes => simp [hvidLen, hindexes] at h

/-- What a turn takes to be known of its space is what the catalogs say. -/
structure IsTurn (n : Node) (t : Turn) : Prop where
  vidLen : n.catalog.vidLen t.place.space = .ok t.vidLen
  indexes : (n.indexCatalog.getD n.catalog).edgeIndexes t.place.space = .ok t.indexes

theorem IsTurn.congr (h : n.IsTurn t) (hm : n.SetUpAs m) : m.IsTurn t := by
  refine ⟨?_, ?_⟩
  · rw [hm.catalog, h.vidLen]
  · rw [hm.catalog, hm.indexCatalog, h.indexes]

/-- A plan can be made from the scene, in a space with indexes. -/
structure IsScene (n : Node) (s : Scene) : Prop where
  catalog : s.catalog = n.catalog
  markers : s.markers = n.markers
  vidLen : n.catalog.vidLen s.place.space = .ok s.vidLen
  indexes : (n.indexCatalog.getD n.catalog).edgeIndexes s.place.space = .ok s.indexes
  indexed : s.indexes.isEmpty = false

theorem IsScene.congr {s : Scene} (h : m.IsScene s) (hm : n.SetUpAs m) : n.IsScene s := by
  refine ⟨h.catalog.trans hm.catalog, h.markers.trans hm.markers, ?_, ?_, h.indexed⟩
  · rw [← hm.catalog, h.vidLen]
  · rw [← hm.catalog, ← hm.indexCatalog, h.indexes]

/-- Scenes in the partition of a turn differ from that of the turn in the count of writes in
flight only. -/
theorem IsScene.still_eq {s : Scene} (h : n.IsScene s) (ht : n.IsTurn t)
    (hplace : s.place = t.place) :
    t.indexes.isEmpty = false ∧ s.still = (n.scene t).still := by
  obtain ⟨catalog, markers, indexes, place, vidLen, inflight⟩ := s
  obtain ⟨rfl, rfl, hvidLen, hindexes, hindexed⟩ := h
  obtain rfl : place = t.place := hplace
  obtain rfl : t.vidLen = vidLen := Except.ok.inj (ht.vidLen.symm.trans hvidLen)
  obtain rfl : t.indexes = indexes := Except.ok.inj (ht.indexes.symm.trans hindexes)
  exact ⟨hindexed, rfl⟩

/-! ### Isolation -/

/-- In spaces with indexes, what is held back shows below the prefixes of claimed edges only, and
a claimed edge makes no plan fail, before the writes held back are applied and after. -/
structure Isolated (n : Node) : Prop where
  unclaimed : ∀ s, n.IsScene s → ∀ e : Edge, e.hasWidth s.vidLen = true →
    n.locks.isLocked ⟨s.place, e⟩ = false → ∀ k, Key.edgePrefix s.vidLen s.place.part e <+: k →
      (n.store.stored s.place).get? k = (n.store.landed.stored s.place).get? k
  claimed : ∀ s, n.IsScene s → ∀ e, n.locks.isLocked ⟨s.place, e⟩ = true →
    e.hasWidth s.vidLen = true ∧ s.edgeError (n.store.contents s.place) e = none ∧
      s.edgeError (n.store.landed.contents s.place) e = none

/-- With nothing held back there is nothing to show. -/
theorem isolated_of_not_held (hheld : n.store.held = none)
    (hfree : ∀ id, n.locks.isLocked id = false) : n.Isolated := by
  constructor
  · intro s _ e _ _ k _
    rw [Store.landed, Store.landing_of_not_held hheld]
    rfl
  · intro s _ e hlocked
    rw [hfree] at hlocked
    simp at hlocked

/-- Only keys below the prefixes of its own edges change by a turn, among those of edges. -/
theorem get?_landed_work (hf : n.Faultless) (ht : n.IsTurn t) {s : Scene} (hs : n.IsScene s)
    {e : Edge} (he : e.hasWidth s.vidLen = true) (hother : s.place = t.place → e ∉ t.edges)
    {k : Bytes} (hk : Key.edgePrefix s.vidLen s.place.part e <+: k) :
    ((n.work t).store.landed.stored s.place).get? k = (n.store.landed.stored s.place).get? k := by
  cases hverdict : n.verdict t with
  | refused error => rw [landed_work hf, hverdict]
  | write change edges hold =>
    rw [get?_stored_landed_work hf hverdict s.place (Key.head?_of_edgePrefix hk)]
    refine if_neg ?_
    rintro ⟨hplace, -, hmem⟩
    obtain ⟨hindexes, hstill⟩ := hs.still_eq ht hplace
    have hvidLen : s.vidLen = t.vidLen := congrArg (·.vidLen) hstill
    rcases of_verdict_write hverdict with ⟨hempty, -⟩ | ⟨-, herror, -⟩
    · simp [hempty] at hindexes
    -- what goes below the prefix goes on behalf of an edge of the turn, which would be this one
    obtain ⟨hplan, -⟩ := Scene.plan_stored herror
    rw [removedIn, hindexes] at hmem
    obtain ⟨e', he', hk' | hk'⟩ := Scene.of_mem_removedKeys (fun e he => (hplan e he).2) hmem
    · rw [hvidLen] at he hk
      rw [hplace] at hk
      obtain rfl := Key.eq_of_edgePrefix he (hplan e' he').1 hk hk'
      exact hother hplace he'
    · have htag := (Key.head?_of_edgePrefix hk).symm.trans (Scene.head?_of_mem_indexKeys hk')
      simp [Key.edgeTag, Key.indexTag] at htag

theorem samePlaces_landed_work (hf : n.Faultless) (t : Turn) :
    (n.work t).store.landed.SamePlaces n.store.landed := by
  rw [landed_work hf]
  cases n.verdict t with
  | refused error => exact fun _ => rfl
  | write change edges hold => exact Store.samePlaces_apply _ _

theorem hasWidth_of_verdict {change : Change} {edges : Nat} {hold : Option Hold}
    (hverdict : n.verdict t = .write change edges hold) (hindexes : t.indexes.isEmpty = false)
    {e : Edge} (he : e ∈ t.edges) : e.hasWidth t.vidLen = true := by
  rcases of_verdict_write hverdict with ⟨hempty, -⟩ | ⟨-, herror, -⟩
  · simp [hempty] at hindexes
  · exact ((Scene.plan_stored herror).1 e he).1

theorem planOf_error (hf : n.Faultless) (t : Turn) :
    (n.planOf t).error = t.edges.findSome? ((n.scene t).edgeError (n.store.contents t.place)) := by
  refine (Scene.plan_error ?_ t.edges).2
  rw [hf.scans]
  rfl

theorem edgeError_of_verdict (hf : n.Faultless) {change : Change} {edges : Nat}
    {hold : Option Hold} (hverdict : n.verdict t = .write change edges hold)
    (hindexes : t.indexes.isEmpty = false) {e : Edge} (he : e ∈ t.edges) :
    (n.scene t).edgeError (n.store.contents t.place) e = none := by
  rcases of_verdict_write hverdict with ⟨hempty, -⟩ | ⟨-, herror, -⟩
  · simp [hempty] at hindexes
  rw [planOf_error hf, List.findSome?_eq_none_iff] at herror
  exact herror e he

/-- An edge that a turn has claimed makes no plan fail once the write of the turn is applied. -/
theorem edgeError_landed_work (hf : n.Faultless) (h : n.Isolated) (ht : n.IsTurn t)
    {change : Change} {edges : Nat} {hold : Option Hold}
    (hverdict : n.verdict t = .write change edges hold) (hindexes : t.indexes.isEmpty = false)
    {e : Edge} (he : e ∈ t.edges) (hfree : n.locks.isLocked ⟨t.place, e⟩ = false) :
    (n.scene t).edgeError ((n.work t).store.landed.contents t.place) e = none := by
  rcases of_verdict_write hverdict with ⟨hempty, -⟩ | ⟨-, herror, -⟩
  · simp [hempty] at hindexes
  obtain ⟨hplan, -⟩ := Scene.plan_stored herror
  obtain ⟨hwidth, hkeys⟩ := hplan e he
  have hview := h.unclaimed (n.scene t) ⟨rfl, rfl, ht.vidLen, ht.indexes, hindexes⟩ e hwidth hfree
  rcases landed_work_cases hf hverdict with ⟨hsame, -⟩ | ⟨hok, c, -, hafter⟩
  · -- the write fails, so the keys below the prefix are as they were when the plan was made
    rw [hsame]
    have hagree := Scene.edgeError_of_agree (fun p => (n.store.samePlaces_landed p).symm) hview
    exact hagree.symm.trans (edgeError_of_verdict hf hverdict hindexes he)
  · -- the write takes away whatever is stored below the prefix
    have hcontents := Store.contents_eq_ok_iff.2 ((hafter t.place).trans (if_pos rfl))
    rw [hcontents, ← Store.stored_of_contents hcontents]
    refine Scene.edgeError_of_none hwidth fun k hk => ?_
    have hsame : (n.store.landed.stored t.place).get? k = (n.store.stored t.place).get? k :=
      (hview k hk).symm
    rw [get?_stored_landed_work hf hverdict t.place (Key.head?_of_edgePrefix hk), hok, hsame]
    cases hv : (n.store.stored t.place).get? k with
    | none => exact ite_self _
    | some v =>
      refine if_pos ⟨rfl, rfl, ?_⟩
      rw [removedIn, hindexes]
      exact Step.mem_removedKeys_flatMap.2 ⟨e, he, Scene.mem_removedKeys_edgeSteps hkeys hv hk⟩

theorem Isolated.congr (h : n.Isolated) (hm : n.SetUpAs m) (hparts : m.store.parts = n.store.parts)
    (hlanded : m.store.landed = n.store.landed) (hlocks : m.locks = n.locks) : m.Isolated := by
  constructor
  · intro s hs e he hfree k hk
    rw [hlocks] at hfree
    rw [hlanded, Store.stored, hparts]
    exact h.unclaimed s (hs.congr hm) e he hfree k hk
  · intro s hs e hlocked
    rw [hlocks] at hlocked
    rw [hlanded, Store.contents_congr hparts]
    exact h.claimed s (hs.congr hm) e hlocked

/-- What a turn on a node that holds writes back changes at once. -/
theorem work_of_held (hf : n.Faultless) {queue : List (Write Submitter)}
    (hheld : n.store.held = some queue) (t : Turn) :
    (n.work t).store.parts = n.store.parts ∧ (n.work t).locks = (n.grant (n.kept? t)).locks := by
  have hwork := quiet_work_of_faultless hf t
  constructor
  · refine (congrArg (·.store.parts) hwork).trans ((congrArg (·.parts) (store_grant ..)).trans ?_)
    show (n.submittedTo t).parts = n.store.parts
    rw [submittedTo]
    cases n.verdict t with
    | refused e => rfl
    | write change edges hold => simp only [Store.submit_of_held hheld, Store.counted]
  · refine (congrArg (·.locks) hwork).trans ?_
    cases n.kept? t <;> rfl

/-- In a space with indexes the edges of a turn are claimed after it, and were not before. -/
theorem isLocked_work (hf : n.Faultless) (ht : n.IsTurn t) {queue : List (Write Submitter)}
    (hheld : n.store.held = some queue) {change : Change} {edges : Nat} {hold : Option Hold}
    (hverdict : n.verdict t = .write change edges hold) {s : Scene} (hs : n.IsScene s) (e : Edge) :
    ((n.work t).locks.isLocked ⟨s.place, e⟩ = true ↔
        (s.place = t.place ∧ e ∈ t.edges) ∨ n.locks.isLocked ⟨s.place, e⟩ = true) ∧
      (s.place = t.place → e ∈ t.edges → n.locks.isLocked ⟨s.place, e⟩ = false) := by
  have hkept : n.kept? t = hold := by
    rw [kept?, hverdict, hheld]
    rfl
  rw [(work_of_held hf hheld t).2, hkept]
  rcases of_verdict_write hverdict with ⟨hempty, -, -, rfl⟩ | ⟨-, -, -, entries, rfl, hfree⟩
  · -- a turn in a space without indexes claims nothing, and scenes are of spaces with indexes
    have hplace : s.place ≠ t.place := by
      intro hplace
      simp [(hs.still_eq ht hplace).1] at hempty
    simp [hplace, grant]
  · simp only [LockTable.mem_distinct] at hfree
    have hmem : (⟨s.place, e⟩ : EdgeId) ∈ t.ids ↔ s.place = t.place ∧ e ∈ t.edges := by
      simp only [Turn.ids, List.mem_map, EdgeId.mk.injEq]
      constructor
      · rintro ⟨e', he', hplace, rfl⟩
        exact ⟨hplace.symm, he'⟩
      · rintro ⟨hplace, he⟩
        exact ⟨e, he, hplace.symm, rfl⟩
    simp only [grant, LockTable.isLocked_hold, LockTable.mem_distinct, hmem]
    exact ⟨trivial, fun hplace he => hfree _ (hmem.2 ⟨hplace, he⟩)⟩

section Held

variable (hf : n.Faultless) (h : n.Isolated) (ht : n.IsTurn t) {queue : List (Write Submitter)}
  (hheld : n.store.held = some queue) {change : Change} {edges : Nat} {hold : Option Hold}
  (hverdict : n.verdict t = .write change edges hold) {s : Scene} (hs : n.IsScene s) {e : Edge}
include hf h ht hheld hverdict hs

/-- An edge that is free after a turn was free before and is not in the turn. -/
theorem unclaimed_work (he : e.hasWidth s.vidLen = true)
    (hfree : (n.work t).locks.isLocked ⟨s.place, e⟩ = false) {k : Bytes}
    (hk : Key.edgePrefix s.vidLen s.place.part e <+: k) :
    ((n.work t).store.stored s.place).get? k
      = ((n.work t).store.landed.stored s.place).get? k := by
  obtain ⟨hiff, -⟩ := isLocked_work hf ht hheld hverdict hs e
  have hnot : ¬(s.place = t.place ∧ e ∈ t.edges) ∧ n.locks.isLocked ⟨s.place, e⟩ = false := by
    simpa [hfree] using hiff
  have hparts := (work_of_held hf hheld t).1
  rw [get?_landed_work hf ht hs he (fun hp hmem => hnot.1 ⟨hp, hmem⟩) hk, Store.stored, hparts]
  exact h.unclaimed s hs e he hnot.2 k hk

/-- An edge that is claimed after a turn was claimed in it or before. -/
theorem claimed_work (hclaimed : (n.work t).locks.isLocked ⟨s.place, e⟩ = true) :
    e.hasWidth s.vidLen = true ∧ s.edgeError ((n.work t).store.contents s.place) e = none ∧
      s.edgeError ((n.work t).store.landed.contents s.place) e = none := by
  obtain ⟨hiff, hwas⟩ := isLocked_work hf ht hheld hverdict hs e
  rw [Store.contents_congr (work_of_held hf hheld t).1]
  rcases hiff.1 hclaimed with ⟨hplace, hmem⟩ | hbefore
  · -- claimed in the turn, so the plan of the turn has not failed for it
    obtain ⟨hindexes, hstill⟩ := hs.still_eq ht hplace
    have hfree := hwas hplace hmem
    have hsame : ∀ c, s.edgeError c e = (n.scene t).edgeError c e := by
      intro c
      rw [← s.edgeError_still, hstill, Scene.edgeError_still]
    have hvidLen : s.vidLen = t.vidLen := congrArg (·.vidLen) hstill
    rw [hplace] at hfree ⊢
    rw [hsame, hsame, hvidLen]
    exact ⟨hasWidth_of_verdict hverdict hindexes hmem,
      edgeError_of_verdict hf hverdict hindexes hmem,
      edgeError_landed_work hf h ht hverdict hindexes hmem hfree⟩
  · -- claimed before, so it is not in the turn and nothing below its prefix has changed
    obtain ⟨hwidth, hnow, hthen⟩ := h.claimed s hs e hbefore
    have hother : s.place = t.place → e ∉ t.edges := by
      intro hplace hmem
      rw [hwas hplace hmem] at hbefore
      simp at hbefore
    refine ⟨hwidth, hnow, ?_⟩
    rw [Scene.edgeError_of_agree (samePlaces_landed_work hf t) fun k hk =>
      get?_landed_work hf ht hs hwidth hother hk]
    exact hthen

end Held

/-- A turn keeps a node isolated. -/
theorem isolated_work (hf : n.Faultless) (h : n.Isolated) (ht : n.IsTurn t) {tracked : Nat}
    (hb : n.Balanced [] tracked) : (n.work t).Isolated := by
  have hsetUp := setUpAs_work hf t
  cases hheld : n.store.held with
  | none =>
    -- the turn is over, and by the accounts nothing is claimed
    have hheld' : (n.work t).store.held = none := (frame_work hheld t).held.trans hheld
    have hlocks := (balanced_work hb t).locks
    rw [holds_of_not_held hheld'] at hlocks
    refine isolated_of_not_held hheld' fun id => ?_
    simpa using (hlocks.locked id).not
  | some queue =>
    cases hverdict : n.verdict t with
    | refused error =>
      obtain ⟨hparts, hlocks⟩ := work_of_held hf hheld t
      refine h.congr hsetUp hparts ?_ ?_
      · rw [landed_work hf, hverdict]
      · rw [hlocks, kept?, hverdict]
        rfl
    | write change edges hold =>
      constructor
      · intro s hs e he hfree k hk
        exact unclaimed_work hf h ht hheld hverdict (hs.congr hsetUp) he hfree hk
      · intro s hs e hclaimed
        exact claimed_work hf h ht hheld hverdict (hs.congr hsetUp) hclaimed

end Node

end EdgeDeletion
