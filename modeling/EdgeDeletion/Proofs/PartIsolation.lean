/-
A partition comes out of a request as it does by itself.

Whatever becomes of the other partitions of a request, of each one it leaves what the
request for it alone leaves: its contents without some keys and with some lines of the log.
Only the numbers of these lines depend on the others, because all partitions draw from the
same sequencer.

* `Leaves` — what a request leaves of a partition; `LeavesAlike` — it leaves what the request
  for the partition alone leaves, but for the numbers of the new lines;
* `leaves_match` — the same becomes of a partition with others and alone;
* `parts_isolated` — partitions are isolated from each other;
* `isolation_exceptions` — what there is to see of the others where a line of the log is
  overwritten, or where the numbers run out, or where a write gets lost.
-/
import EdgeDeletion.Proofs.LineNumbers
import EdgeDeletion.Proofs.Separation

namespace EdgeDeletion

/-- The request for one of its partitions only. -/
def DeleteRequest.restrict (r : DeleteRequest) (part : PartId) : DeleteRequest :=
  { r with parts := r.parts.filter fun p => p == part }

theorem DeleteRequest.mem_restrict {r : DeleteRequest} {part : PartId} {edges : List Edge}
    (h : (part, edges) ∈ r.parts.entries) : (part, edges) ∈ (r.restrict part).parts.entries :=
  List.mem_filter.2 ⟨h, beq_self_eq_true part⟩

namespace Node

open Store (AgreeAt)

variable {n m : Node} {r : DeleteRequest} {t : Turn} {part : PartId} {edges : List Edge}

/-- Before the turn of a partition the node looks to it as it did before the request. -/
theorem agreeAt_reached {ts : List Turn} (hheld : n.store.held = none)
    (hturns : n.turns r = .ok ts) (part : PartId) :
    (n.reached r (· < part)).locks = n.locks ∧
      AgreeAt ⟨r.space, part⟩ n.store (n.reached r (· < part)).store := by
  have hne : ∀ t ∈ ts.filter (fun t => decide (t.place.part < part)),
      t.place ≠ ⟨r.space, part⟩ := by
    rintro t ht hplace
    have hlt := (List.mem_filter.1 ht).2
    rw [hplace] at hlt
    exact absurd (of_decide_eq_true hlt) (UInt32.lt_irrefl part)
  rw [reached, hturns]
  exact ⟨(frame_workAll (n := n.arrived r) hheld _).locks,
    agreeAt_workAll (n := n.arrived r) hheld hne⟩

/-- If no write gets lost, none does so before the turn. -/
theorem agree_reached {ts : List Turn} (hheld : n.store.held = none) (hkeeps : n.losesNext = false)
    (hturns : n.turns r = .ok ts) (part : PartId) :
    (n.reached r (· < part)).locks = n.locks ∧ (n.reached r (· < part)).losesNext = false ∧
      AgreeAt ⟨r.space, part⟩ n.store (n.reached r (· < part)).store := by
  obtain ⟨hlocks, hagree⟩ := agreeAt_reached hheld hturns part
  refine ⟨hlocks, ?_, hagree⟩
  rw [reached, hturns]
  exact losesNext_workAll (n := n.arrived r) hheld hkeeps

/-- The numbers of the new lines are some of those that are drawn in the request. -/
theorem AtTurn.sublist_of_ends (hat : AtTurn n r t m) {code : ResultCode}
    {removed keys : List Bytes} (hends : m.Ends t code removed keys) :
    (m.sequencer.drawMany keys.length).1.Sublist (n.drawnUntil (n.process r).2) := by
  rcases hends.drawn with rfl | hdrawn
  · exact List.nil_sublist _
  · exact hat.sublist_drawn hdrawn

/-- What a request leaves of a partition: its contents before without some keys, and with lines of
the log under numbers that were drawn in the request. -/
structure Leaves (n : Node) (r : DeleteRequest) (part : PartId) (removed keys : List Bytes)
    (numbers : List UInt64) : Prop where
  length : numbers.length = keys.length
  drawn : numbers.Sublist (n.drawnUntil (n.process r).2)
  parts : (n.process r).2.store.parts.get? ⟨r.space, part⟩
    = (n.store.parts.get? ⟨r.space, part⟩).map fun c =>
        (c.without removed).withLog part (numbers.zip keys)

theorem Leaves.contents {removed keys : List Bytes} {numbers : List UInt64} {c : Contents}
    (h : n.Leaves r part removed keys numbers) (hc : n.store.contents ⟨r.space, part⟩ = .ok c) :
    (n.process r).2.store.contents ⟨r.space, part⟩
      = .ok ((c.without removed).withLog part (numbers.zip keys)) := by
  rw [Store.contents_eq_ok_iff, h.parts, Store.contents_eq_ok_iff.1 hc]
  rfl

/-- The numbers that are drawn for a request are new to a partition and do not run out: only the
last of them may be the greatest there is. -/
structure DrawsAnew (n : Node) (r : DeleteRequest) (part : PartId) (c : Contents) : Prop where
  below : ∀ x ∈ (n.drawnUntil (n.process r).2).dropLast, x ≠ 0xffffffffffffffff
  unused : ∀ x ∈ n.drawnUntil (n.process r).2, c.get? (Key.deferral part x) = none

/-- Whether numbers are new can be seen from the list of those that are drawn. -/
theorem drawsAnew_of_all {c : Contents}
    (hbelow : (n.drawnUntil (n.process r).2).dropLast.all fun x => x != 0xffffffffffffffff)
    (hunused : (n.drawnUntil (n.process r).2).all fun x => c.get? (Key.deferral part x) = none) :
    n.DrawsAnew r part c :=
  ⟨by simpa using hbelow, by simpa using hunused⟩

section

variable {removed keys : List Bytes} {numbers : List UInt64} {c : Contents}

theorem Leaves.ascending (h : n.Leaves r part removed keys numbers) (hanew : n.DrawsAnew r part c) :
    numbers.Pairwise (· < ·) := (drawnUntil_ascending hanew.below).sublist h.drawn

theorem Leaves.unused (h : n.Leaves r part removed keys numbers) (hanew : n.DrawsAnew r part c) :
    ∀ x ∈ numbers, c.get? (Key.deferral part x) = none :=
  fun x hx => hanew.unused x (h.drawn.subset hx)

end

theorem leaves_of_ends (hat : AtTurn n r t m) (hplace : t.place = ⟨r.space, part⟩)
    {code : ResultCode} {removed keys : List Bytes} (hends : m.Ends t code removed keys) :
    n.Leaves r part removed keys (m.sequencer.drawMany keys.length).1 := by
  have hafter := hat.after.trans hends.parts
  rw [hat.before, hplace] at hafter
  exact ⟨Sequencer.length_drawMany .., hat.sublist_of_ends hends, hafter⟩

theorem leaves_of_error {e : DeleteError} (hturns : n.turns r = .error e) (part : PartId) :
    n.Leaves r part [] [] [] := by
  refine ⟨rfl, List.nil_sublist _, ?_⟩
  rw [(process_of_error hturns).1]
  exact n.map_nothing ⟨r.space, part⟩ part

/-- A partition that is not named is left alone, with the failures that are set up for it. -/
theorem agreeAt_process {place : Place} (hheld : n.store.held = none)
    (hnamed : place.space = r.space → place.part ∉ r.parts.keys) :
    AgreeAt place n.store (n.process r).2.store ∧ (n.process r).2.markers = n.markers := by
  cases hturns : n.turns r with
  | error e =>
    obtain ⟨hstore, hmarkers, -, -⟩ := process_of_error hturns
    rw [hstore]
    exact ⟨.refl place n.store, hmarkers⟩
  | ok ts =>
    have hquiet := n.quiet_process r
    rw [hturns] at hquiet
    have hne : ∀ t ∈ ts, t.place ≠ place := by
      rintro t ht rfl
      obtain ⟨-, hspace, hpart⟩ := mem_turns hturns ht
      exact hnamed hspace (List.mem_map_of_mem hpart)
    have hstore : (n.process r).2.store = ((n.arrived r).workAll ts).store :=
      (congrArg Node.store hquiet).trans rfl
    rw [hstore]
    exact ⟨agreeAt_workAll (n := n.arrived r) hheld hne,
      (congrArg Node.markers hquiet).trans (frame_workAll (n := n.arrived r) hheld ts).markers⟩

/-! ### A partition by itself -/

/-- Before the turn of its only partition a request has drawn no numbers. -/
theorem reached_restrict {ts : List Turn} (hturns : n.turns (r.restrict part) = .ok ts) :
    n.reached (r.restrict part) (· < part) = n.arrived (r.restrict part) := by
  have hnone : ts.filter (fun t => decide (t.place.part < part)) = [] := by
    refine List.filter_eq_nil_iff.2 fun t ht => ?_
    obtain ⟨-, -, hmem⟩ := mem_turns hturns ht
    have hpart : t.place.part = part := by simpa using (List.mem_filter.1 hmem).2
    simp [hpart]
  rw [reached, hturns]
  exact congrArg (n.arrived (r.restrict part)).workAll hnone

/-- The numbers that a turn would draw first in its request are some of those that are drawn. -/
theorem AtTurn.prefix_of_ends (hat : AtTurn n r t m) {code : ResultCode}
    {removed keys : List Bytes} (hends : m.Ends t code removed keys) :
    (n.sequencer.drawMany keys.length).1.Sublist (n.drawnUntil (n.process r).2) := by
  rcases hends.drawn with rfl | hdrawn
  · exact List.nil_sublist _
  · obtain ⟨i, hi⟩ := hat.drawn
    obtain ⟨j, hj⟩ := hat.drawnAfter
    have hsum : (n.process r).2.sequencer = (n.sequencer.drawMany (keys.length + i + j)).2 := by
      rw [Nat.add_comm keys.length, Sequencer.drawMany_add, Sequencer.drawMany_add, ← hi, hj,
        hdrawn]
    rw [drawnUntil_of_eq hsum, Nat.add_assoc, Sequencer.drawMany_add]
    exact List.sublist_append_left ..

/-- Of a partition a request leaves what the request for it alone leaves, but for the numbers of the
new lines of the log, which ascend in both. -/
def LeavesAlike (n : Node) (r : DeleteRequest) (part : PartId) : Prop :=
  ∃ lines : List LogLine,
    (lines.map (·.first)).Pairwise (· < ·) ∧ (lines.map (·.second)).Pairwise (· < ·) ∧
    SameButNumbers part lines ((n.process r).2.store.parts.get? ⟨r.space, part⟩)
      ((n.process (r.restrict part)).2.store.parts.get? ⟨r.space, part⟩)

/-- What is left is the same but for the numbers, if those that are drawn in the request are new. -/
theorem Leaves.alike {removed keys : List Bytes} {numbers numbers' : List UInt64}
    (h : n.Leaves r part removed keys numbers)
    (h' : n.Leaves (r.restrict part) part removed keys numbers')
    (hdrawn : numbers'.Sublist (n.drawnUntil (n.process r).2))
    (hanew : n.DrawsAnew r part (n.store.stored ⟨r.space, part⟩)) : n.LeavesAlike r part := by
  obtain ⟨hfirst, hsecond, -, -⟩ := LogLine.map_ofDraws ⟨r.space, part⟩ h.length h'.length
  -- nothing is stored under the numbers before the request, so nothing is left there
  have hnew : ∀ c, (n.store.parts.get? ⟨r.space, part⟩).map (·.without removed) = some c →
      ∀ x, x ∈ numbers ∨ x ∈ numbers' → c.get? (Key.deferral part x) = none := by
    intro c hc x hx
    obtain ⟨d, hd, rfl⟩ := Option.map_eq_some_iff.1 hc
    have hstored : n.store.stored ⟨r.space, part⟩ = d := by rw [Store.stored, hd]; rfl
    have hnone : d.get? (Key.deferral part x) = none := by
      rw [← hstored]
      exact hanew.unused x (hx.elim (h.drawn.subset ·) (hdrawn.subset ·))
    rw [Contents.get?_without, hnone, ite_self]
  have hsame := SameButNumbers.of_draws ⟨r.space, part⟩ h.length h'.length hnew
  rw [Option.map_map, Option.map_map] at hsame
  refine ⟨LogLine.ofDraws ⟨r.space, part⟩ numbers numbers' keys, ?_, ?_, ?_⟩
  · rw [hfirst]
    exact h.ascending hanew
  · rw [hsecond]
    exact (drawnUntil_ascending hanew.below).sublist hdrawn
  · rw [h.parts, show (n.process (r.restrict part)).2.store.parts.get? ⟨r.space, part⟩ = _ from
      h'.parts]
    exact hsame

/-- The same becomes of a partition in a request and in the request for it alone, where it gets the
numbers that come first in the whole request. -/
theorem leaves_match (hheld : n.store.held = none) (hkeeps : n.losesNext = false)
    (hpart : (part, edges) ∈ r.parts.entries) : ∃ code removed keys numbers numbers',
      (n.process r).2.codeOf? n.requests.length part = some code ∧
      (n.process (r.restrict part)).2.codeOf? n.requests.length part = some code ∧
      n.Leaves r part removed keys numbers ∧ n.Leaves (r.restrict part) part removed keys numbers' ∧
      numbers'.Sublist (n.drawnUntil (n.process r).2) := by
  have hpart' := DeleteRequest.mem_restrict hpart
  cases hturns : n.turns r with
  | error e =>
    have hturns' : n.turns (r.restrict part) = .error e :=
      turns_of_error hturns (setUpAs_of_quiet rfl) rfl
    exact ⟨e.code, [], [], [], [], codeOf?_process_of_error hturns (List.mem_map_of_mem hpart),
      codeOf?_process_of_error hturns' (List.mem_map_of_mem hpart'),
      leaves_of_error hturns part, leaves_of_error hturns' part, List.nil_sublist _⟩
  | ok ts =>
    obtain ⟨vidLen, indexes, hvidLen, hindexes, -, -, hat⟩ := atTurn_of_mem hheld hturns hpart
    obtain ⟨ts', hturns'⟩ := exists_turns (r := r.restrict part) hvidLen hindexes
    obtain ⟨vidLen', indexes', hvidLen', hindexes', -, -, hat'⟩ :=
      atTurn_of_mem hheld hturns' hpart'
    obtain rfl := Except.ok.inj (hvidLen.symm.trans hvidLen')
    obtain rfl := Except.ok.inj (hindexes.symm.trans hindexes')
    -- both turns are the same one, on nodes that look to it as before the request
    obtain ⟨hlocks, hlost, hagree⟩ := agree_reached hheld hkeeps hturns part
    obtain ⟨hlocks', hlost', hagree'⟩ := agree_reached hheld hkeeps hturns' part
    obtain ⟨code, removed, keys, hends, hends'⟩ := ends_match
      ⟨hat.scene.trans hat'.scene.symm, hlocks.trans hlocks'.symm, hagree.symm.trans hagree'⟩
      ⟨hat.held, hlost, hat.listed, hat.silent⟩ ⟨hat'.held, hlost', hat'.listed, hat'.silent⟩
    -- by itself the partition has its turn first
    have hdrawn := hat.prefix_of_ends hends
    have hfirst : (n.reached (r.restrict part) (· < part)).sequencer = n.sequencer :=
      (congrArg Node.sequencer (reached_restrict hturns')).trans rfl
    rw [← hfirst] at hdrawn
    exact ⟨code, removed, keys, _, _, hat.code.trans hends.code, hat'.code.trans hends'.code,
      leaves_of_ends hat rfl hends, leaves_of_ends hat' rfl hends', hdrawn⟩

/-- **Partitions are isolated from each other.**  On a node that holds no writes back and is not set
to lose one, a partition comes out of a request as it does out of the request for it alone: with
the same code, the same keys removed, and the same lines in the log but for their numbers.  So if
the numbers that are drawn in the request are new to the partition and do not run out, the contents
are the same but for these numbers.  A partition that is not named keeps its contents, the failures
that are set up for it, and its markers. -/
theorem parts_isolated {n : Node} (hheld : n.store.held = none) (hkeeps : n.losesNext = false)
    (r : DeleteRequest) :
    (∀ part edges, (part, edges) ∈ r.parts.entries → ∃ code removed keys numbers numbers',
      (n.process r).2.codeOf? n.requests.length part = some code ∧
      (n.process (r.restrict part)).2.codeOf? n.requests.length part = some code ∧
      n.Leaves r part removed keys numbers ∧
      n.Leaves (r.restrict part) part removed keys numbers' ∧
      (n.DrawsAnew r part (n.store.stored ⟨r.space, part⟩) → n.LeavesAlike r part)) ∧
    ∀ place, (place.space = r.space → place.part ∉ r.parts.keys) →
      (n.process r).2.store.parts.get? place = n.store.parts.get? place ∧
      (n.process r).2.store.writeFaults.get? place = n.store.writeFaults.get? place ∧
      (n.process r).2.store.scanFaults.get? place = n.store.scanFaults.get? place ∧
      ∀ index, (n.process r).2.markers.state place index = n.markers.state place index := by
  refine ⟨fun part edges hpart => ?_, fun place hnamed => ?_⟩
  · obtain ⟨code, removed, keys, numbers, numbers', hcode, hcode', hleaves, hleaves', hdrawn⟩ :=
      leaves_match hheld hkeeps hpart
    exact ⟨code, removed, keys, numbers, numbers', hcode, hcode', hleaves, hleaves',
      hleaves.alike hleaves' hdrawn⟩
  · obtain ⟨hagree, hmarkers⟩ := agreeAt_process hheld hnamed
    exact ⟨hagree.parts.symm, hagree.writeFault.symm, hagree.scanFault.symm, fun index => by
      rw [hmarkers]⟩

/-- A node with a second partition, whose next scan fails. -/
def disturbed : Node :=
  { sample with store := (sample.store.addPart ⟨1, 2⟩).failScan ⟨1, 2⟩ .leaderChanged }

/-- A request for edges of both partitions. -/
def disturbedRequest : DeleteRequest := sampleRequest.addPart 2 [sampleEdge]

theorem parts_isolated_disturbed :
    (disturbed.process disturbedRequest).2.codeOf? 0 2 = some (.store .leaderChanged) ∧
      (disturbed.process disturbedRequest).2.codeOf? 0 3 = some .succeeded ∧
      disturbed.LeavesAlike disturbedRequest 3 ∧
      ∃ code removed keys numbers numbers',
        (disturbed.process disturbedRequest).2.codeOf? 0 3 = some code ∧
        (disturbed.process (disturbedRequest.restrict 3)).2.codeOf? 0 3 = some code ∧
        disturbed.Leaves disturbedRequest 3 removed keys numbers ∧
        disturbed.Leaves (disturbedRequest.restrict 3) 3 removed keys numbers' := by
  have hscan : (disturbed.process disturbedRequest).2.codeOf? 0 2
      = some (.store .leaderChanged) := by decide +kernel
  have hcode : (disturbed.process disturbedRequest).2.codeOf? 0 3 = some .succeeded := by
    decide +kernel
  have hpart : ((3 : PartId), [sampleEdge, sampleEdge]) ∈ disturbedRequest.parts.entries := by
    decide
  have hanew : disturbed.DrawsAnew disturbedRequest 3 (disturbed.store.stored ⟨1, 3⟩) :=
    drawsAnew_of_all (by decide +kernel) (by decide +kernel)
  obtain ⟨code, removed, keys, numbers, numbers', hfirst, hsecond, hleaves, hleaves', halike⟩ :=
    (parts_isolated (n := disturbed) rfl rfl disturbedRequest).1 3 _ hpart
  exact ⟨hscan, hcode, halike hanew, code, removed, keys, numbers, numbers', hfirst, hsecond,
    hleaves, hleaves'⟩

/-! ### Where the numbers are not new -/

/-- How many keys a request leaves in a partition. -/
def sizeAfter (n : Node) (r : DeleteRequest) (part : PartId) : Option Nat :=
  ((n.process r).2.store.parts.get? ⟨r.space, part⟩).map OrderedMap.size

/-- Contents of different sizes are not the same but for numbers. -/
theorem LeavesAlike.size_eq (h : n.LeavesAlike r part) :
    n.sizeAfter r part = n.sizeAfter (r.restrict part) part := by
  obtain ⟨lines, hfirst, hsecond, hsame⟩ := h
  exact hsame.size_eq hfirst hsecond

/-- A node with two partitions, each of which has the record of an edge and its entry in an index
that is being rebuilt. -/
def paired : Node :=
  { sample with
    markers := sample.markers.setIndex ⟨1, 2⟩ 7 .rebuilding
    store := { sample.store with
      parts := sample.store.parts.insert ⟨1, 2⟩
        ((OrderedMap.empty.insert (Key.record 1 2 sampleEdge) [1, 0, 0]).insert
          (Key.entry 1 2 7 sampleEdge []) []) } }

/-- One partition whose log has a line already, under the number that comes third. -/
def overwritten : Node :=
  { paired with
    store := { paired.store with
      parts := paired.store.parts.insert ⟨1, 3⟩ (sampleContents.insert (Key.deferral 3 3) [9]) } }

/-- Two numbers are left before the greatest one. -/
def exhausted : Node :=
  { paired with sequencer := { paired.sequencer with last := 0xfffffffffffffffd } }

/-- The next write gets lost. -/
def losing : Node := { paired with losesNext := true }

/-- The other partition shows in three ways: its numbers come first, so that others are drawn for
this one, and an old line is overwritten in one case only; or the numbers run out, and new lines
overwrite each other; or it is its write that gets lost. -/
theorem isolation_exceptions :
    ((overwritten.process disturbedRequest).2.codeOf? 0 3 = some .succeeded ∧
      (overwritten.process (disturbedRequest.restrict 3)).2.codeOf? 0 3 = some .succeeded ∧
      overwritten.sizeAfter disturbedRequest 3 = some 3 ∧
      overwritten.sizeAfter (disturbedRequest.restrict 3) 3 = some 4 ∧
      ¬overwritten.LeavesAlike disturbedRequest 3) ∧
    ((exhausted.process disturbedRequest).2.codeOf? 0 3 = some .succeeded ∧
      (exhausted.process (disturbedRequest.restrict 3)).2.codeOf? 0 3 = some .succeeded ∧
      exhausted.sizeAfter disturbedRequest 3 = some 2 ∧
      exhausted.sizeAfter (disturbedRequest.restrict 3) 3 = some 3 ∧
      ¬exhausted.LeavesAlike disturbedRequest 3) ∧
    (losing.process disturbedRequest).2.codeOf? 0 3 = some .succeeded ∧
      (losing.process (disturbedRequest.restrict 3)).2.codeOf? 0 3 = none ∧
      losing.sizeAfter disturbedRequest 3 = some 3 ∧
      losing.sizeAfter (disturbedRequest.restrict 3) 3 = some 2 ∧
      ¬losing.LeavesAlike disturbedRequest 3 := by
  have hoverwritten : overwritten.sizeAfter disturbedRequest 3 = some 3 ∧
      overwritten.sizeAfter (disturbedRequest.restrict 3) 3 = some 4 := by decide +kernel
  have hexhausted : exhausted.sizeAfter disturbedRequest 3 = some 2 ∧
      exhausted.sizeAfter (disturbedRequest.restrict 3) 3 = some 3 := by decide +kernel
  have hlosing : losing.sizeAfter disturbedRequest 3 = some 3 ∧
      losing.sizeAfter (disturbedRequest.restrict 3) 3 = some 2 := by decide +kernel
  -- what is left has another size in each case
  have hdiffers : ∀ {n : Node} {size size' : Nat}, n.sizeAfter disturbedRequest 3 = some size ∧
      n.sizeAfter (disturbedRequest.restrict 3) 3 = some size' → size ≠ size' →
      ¬n.LeavesAlike disturbedRequest 3 := by
    intro n size size' hsizes hne halike
    exact hne (Option.some.inj (hsizes.1.symm.trans (halike.size_eq.trans hsizes.2)))
  refine ⟨⟨?_, ?_, hoverwritten.1, hoverwritten.2, hdiffers hoverwritten (by decide)⟩,
    ⟨?_, ?_, hexhausted.1, hexhausted.2, hdiffers hexhausted (by decide)⟩,
    ?_, ?_, hlosing.1, hlosing.2, hdiffers hlosing (by decide)⟩ <;> decide +kernel

end Node

end EdgeDeletion
