/-
What the partitions of a request report.

A partition is among the results to its request if its slot has reported, which it does once.

* `gathered_strikeAll` — at every moment the collector of a request has gathered what the
  slots of the request have reported so far;
* `response?_strikeAll` — an answer that is complete stays as it is;
* `Gathered.response_iff`, `Gathered.results_eq` — an answer is complete when all partitions
  have reported, and it has each of them once.
-/
import EdgeDeletion.Proofs.Moments

namespace EdgeDeletion

/-! ### Reports along a life -/

namespace Stroke

/-- What a stroke reports, and for which slot. -/
def report? : Stroke → Option (Slot × ResultCode)
  | .refuse slot code | .report slot code => some (slot, code)
  | _ => none

/-- Whether a stroke submits the write of a slot. -/
def submits (l : Slot) : Stroke → Bool
  | .submit w => w.token.slot? = some l
  | _ => false

end Stroke

/-- What was reported, in order. -/
def said (h : List Stroke) : List (Slot × ResultCode) := h.filterMap Stroke.report?

theorem said_append (h h' : List Stroke) : said (h ++ h') = said h ++ said h' :=
  List.filterMap_append

/-- The results that were reported to a request. -/
def resultsOf (request : Nat) (reports : List (Slot × ResultCode)) : List PartResult :=
  reports.filterMap fun p => if p.1.request = request then some ⟨p.1.part, p.2⟩ else none

theorem resultsOf_append (request : Nat) (reports reports' : List (Slot × ResultCode)) :
    resultsOf request (reports ++ reports')
      = resultsOf request reports ++ resultsOf request reports' := List.filterMap_append

/-- A partition is among the results to a request as often as its slot has reported. -/
theorem count_resultsOf (l : Slot) (reports : List (Slot × ResultCode)) :
    ((resultsOf l.request reports).map (·.part)).count l.part = (reports.map Prod.fst).count l := by
  induction reports with
  | nil => rfl
  | cons p reports ih =>
    obtain ⟨⟨request, part⟩, code⟩ := p
    rw [resultsOf, List.filterMap_cons, List.map_cons, List.count_cons, ← ih]
    by_cases hrequest : request = l.request
    · have hslot : ((⟨request, part⟩ : Slot) == l) = (part == l.part) := by
        rw [hrequest]
        cases l
        simp
      rw [if_pos hrequest, hslot, List.map_cons, List.count_cons]
      rfl
    · have hslot : ((⟨request, part⟩ : Slot) == l) = false := by
        rw [beq_eq_false_iff_ne]
        exact fun heq => hrequest (congrArg Slot.request heq)
      rw [if_neg hrequest, hslot, if_neg Bool.false_ne_true]
      rfl

namespace Phase

variable {l : Slot} {p q : Phase} {σ : Stroke} {h : List Stroke}

/-- A slot has reported by the strokes that report. -/
theorem Next.said (hnext : Next l p σ q) :
    ((said [σ]).map Prod.fst).count l + p.hasReported.toNat = q.hasReported.toNat := by
  have hreport : [l].count l + 0 = 1 := by simp
  cases hnext with
  | elsewhere helse =>
    have hslot := helse.slot?_ne
    have hother : ∀ {slot}, some slot ≠ some l → [slot].count l = 0 := fun hne =>
      List.count_eq_zero.2 fun hmem => hne (congrArg some (List.mem_singleton.1 hmem).symm)
    have hnone : ([] : List Slot).count l + p.hasReported.toNat = p.hasReported.toNat := by simp
    cases σ with
    | refuse slot code => exact (congrArg (· + _) (hother hslot)).trans (Nat.zero_add _)
    | report slot code => exact (congrArg (· + _) (hother hslot)).trans (Nat.zero_add _)
    | _ => exact hnone
  | fail | refuse | report => exact hreport
  | _ => rfl

theorem Leads.said (hleads : Leads l p h q) :
    ((EdgeDeletion.said h).map Prod.fst).count l + p.hasReported.toNat = q.hasReported.toNat := by
  induction hleads with
  | nil => simp [EdgeDeletion.said]
  | @cons p q r σ h hnext _ ih =>
    have hsaid := hnext.said
    rw [← List.singleton_append, said_append, List.map_append, List.count_append]
    omega

/-- A partition is among the results to its request if its slot has reported. -/
theorem Leads.results (hleads : Leads l .absent h p) :
    ((resultsOf l.request (EdgeDeletion.said h)).map (·.part)).count l.part
      = p.hasReported.toNat := (count_resultsOf ..).trans hleads.said

theorem Leads.mem_results_iff (hleads : Leads l .absent h p) :
    l.part ∈ (resultsOf l.request (EdgeDeletion.said h)).map (·.part) ↔ p.hasReported = true := by
  rw [← List.count_pos_iff, hleads.results]
  cases p.hasReported <;> simp

/-- A slot submits at most one write. -/
theorem Next.submits (hnext : Next l p σ q) :
    (σ.submits l).toNat + p.isDecided.toNat ≤ q.isDecided.toNat := by
  cases hnext with
  | elsewhere helse =>
    have hnone : σ.submits l = false := by
      cases σ with
      | submit w => exact decide_eq_false helse.slot?_ne
      | _ => rfl
    rw [hnone]
    simp
  | submitPlain hslot hhold => simp [Stroke.submits, hslot, isDecided]
  | submit hslot hhold => simp [Stroke.submits, hslot, isDecided]
  | _ => simp [Stroke.submits, isDecided]

theorem Leads.submits (hleads : Leads l p h q) :
    h.countP (Stroke.submits l) + p.isDecided.toNat ≤ q.isDecided.toNat := by
  induction hleads with
  | nil => simp
  | cons hnext _ ih =>
    have hsubmits := hnext.submits
    rw [List.countP_cons]
    cases hσ : Stroke.submits l _ <;> simp only [hσ] at hsubmits ⊢ <;> simp at hsubmits ⊢ <;> omega

/-- Whether the write of a slot got lost. -/
def isLost : Phase → Bool
  | .lost _ | .lapsed => true
  | _ => false

theorem Next.lost (hnext : Next l p σ q) :
    q.isLost = true ↔ p.isLost = true ∨ σ = .lose l := by
  cases hnext with
  | elsewhere helse =>
    have hne : σ ≠ .lose l := by
      rintro rfl
      exact helse rfl
    simp [hne]
  | _ => simp [isLost]

theorem Leads.lost (hleads : Leads l p h q) :
    q.isLost = true ↔ p.isLost = true ∨ .lose l ∈ h := by
  induction hleads with
  | nil => simp
  | @cons p q r σ h hnext _ ih => rw [ih, hnext.lost, List.mem_cons, or_assoc, eq_comm (a := σ)]

/-- Nothing happens to a slot before its request has arrived. -/
theorem Leads.arrived (hleads : Leads l p h q) (hp : p = .absent) :
    q = .absent ∨ ∃ r, .arrive l.request r ∈ h ∧ l.part ∈ r.parts.keys := by
  induction hleads with
  | nil => exact .inl hp
  | cons hnext _ ih =>
    subst hp
    cases hnext with
    | elsewhere =>
      refine (ih rfl).imp id ?_
      rintro ⟨r, hr, hpart⟩
      exact ⟨r, List.mem_cons_of_mem _ hr, hpart⟩
    | @arrive r hpart => exact .inr ⟨r, List.mem_cons_self .., hpart⟩

/-- The strokes with which a slot has to give up what its write keeps. -/
def duties (l : Slot) : Phase → List Stroke
  | .waiting w => (w.token.hold?.toList.flatMap fun hold => [.release l hold.claimed, .untrack l])
  | .applied hold => (hold.toList.flatMap fun hold => [.release l hold.claimed, .untrack l])
  | .released => [.untrack l]
  | _ => []

theorem Next.duties (hnext : Next l p σ q) :
    ∀ σ' ∈ p.duties l, σ' = σ ∨ σ' ∈ q.duties l := by
  cases hnext with
  | elsewhere => exact fun _ => .inr
  | apply => exact fun _ => .inr
  | release => simp [Phase.duties]
  | untrack => simp [Phase.duties]
  | _ => simp [Phase.duties]

/-- What a write keeps is given up before its slot reports. -/
theorem Leads.duties (hleads : Leads l p h q) (hq : q.hasReported = true) :
    ∀ σ ∈ p.duties l, σ ∈ h := by
  induction hleads with
  | @nil p =>
    cases p with
    | refused | reported => simp [Phase.duties]
    | _ => simp [hasReported] at hq
  | cons hnext _ ih =>
    intro σ hσ
    rcases hnext.duties σ hσ with rfl | hσ
    · exact List.mem_cons_self ..
    · exact List.mem_cons_of_mem _ (ih hq σ hσ)

/-- A write is submitted in a part of the life of its slot. -/
theorem Leads.split_submit (hleads : Leads l p h q) {w : Write Submitter} (hmem : .submit w ∈ h)
    (hslot : w.token.slot? = some l) :
    ∃ h₁ h₂, h = h₁ ++ .submit w :: h₂ ∧ Leads l (.waiting w) h₂ q := by
  obtain ⟨h₁, h₂, rfl⟩ := List.append_of_mem hmem
  obtain ⟨p₁, -, hrest⟩ := leads_append_iff.1 hleads
  obtain _ | ⟨hnext, hrest⟩ := hrest
  refine ⟨h₁, h₂, rfl, ?_⟩
  cases hnext with
  | elsewhere helse => exact absurd hslot helse.slot?_ne
  | submitPlain | submit => exact hrest

end Phase

/-! ### What collectors have gathered -/

namespace Session

open Phase

/-- The requests are those that have arrived, and their collectors have gathered what was
reported. -/
structure Gathered (s : Session) (h : List Stroke) : Prop where
  numbered : s.node.requests.length = s.asked.length
  arrived : ∀ request r, .arrive request r ∈ h → s.asked[request]? = some r
  gathers : ∀ (request : Nat) (c : Collector) (r : DeleteRequest), s.node.requests[request]? = some c →
    s.asked[request]? = some r → c.Gathers r.parts.size (resultsOf request (said h))

variable {s s' : Session} {h : List Stroke} {σ : Stroke}

/-- A stroke that brings no request and no report changes nothing. -/
theorem Gathered.pass (hgathered : s.Gathered h) (hrequests : s'.node.requests = s.node.requests)
    (hasked : s'.asked = s.asked) (hreport : σ.report? = none)
    (harrive : ∀ request r, σ ≠ .arrive request r) : s'.Gathered (h ++ [σ]) := by
  have hsaid : said (h ++ [σ]) = said h := by
    rw [said_append, said, said, List.filterMap_cons, hreport]
    exact List.append_nil _
  refine ⟨by rw [hrequests, hasked, hgathered.numbered], fun request r hmem => ?_, ?_⟩
  · rcases List.mem_append.1 hmem with hmem | hmem
    · rw [hasked]
      exact hgathered.arrived request r hmem
    · exact absurd (List.mem_singleton.1 hmem).symm (harrive request r)
  · rw [hrequests, hasked, hsaid]
    exact hgathered.gathers

/-- The slot of whatever was reported was asked for. -/
theorem Gathered.asks_of_leads (hgathered : s.Gathered h) {l : Slot} {p : Phase}
    (hleads : Leads l .absent h p) (hp : p ≠ .absent) :
    ∃ r, s.asked[l.request]? = some r ∧ l.part ∈ r.parts.keys := by
  rcases hleads.arrived rfl with habsent | ⟨r, hmem, hpart⟩
  · exact absurd habsent hp
  · exact ⟨r, hgathered.arrived _ r hmem, hpart⟩

/-- Each partition of a request is at most once among its results, and no other one is. -/
theorem Gathered.results_subset (hgathered : s.Gathered h) (horderly : Orderly h) {request : Nat}
    {r : DeleteRequest} (hr : s.asked[request]? = some r) :
    ((resultsOf request (said h)).map (·.part)).Nodup ∧
      (resultsOf request (said h)).map (·.part) ⊆ r.parts.keys := by
  constructor
  · rw [List.nodup_iff_count_le_one]
    intro part
    obtain ⟨p, hleads⟩ := horderly ⟨request, part⟩
    exact hleads.results.trans_le p.hasReported.toNat_le
  · intro part hpart
    obtain ⟨p, hleads⟩ := horderly ⟨request, part⟩
    have hreported := hleads.mem_results_iff.1 hpart
    obtain ⟨r', hr', hpart'⟩ := hgathered.asks_of_leads hleads (by
      rintro rfl
      exact absurd hreported nofun)
    obtain rfl := Option.some.inj (hr.symm.trans hr')
    exact hpart'

theorem resultsOf_said_append (request : Nat) (h : List Stroke) {l : Slot} {code : ResultCode}
    (hreport : σ.report? = some (l, code)) :
    resultsOf request (said (h ++ [σ])) = resultsOf request (said h) ++
      if l.request = request then [⟨l.part, code⟩] else [] := by
  have hσ : said [σ] = [(l, code)] := by rw [said, List.filterMap_cons, hreport]; rfl
  rw [said_append, hσ, resultsOf_append]
  refine congrArg (_ ++ ·) ?_
  rw [resultsOf, List.filterMap_cons]
  by_cases hrequest : l.request = request
  · rw [if_pos hrequest, if_pos hrequest]
    rfl
  · rw [if_neg hrequest, if_neg hrequest]
    rfl

/-- A partition that has not reported is not among the results. -/
theorem not_mem_results {l : Slot} {p : Phase} (hleads : Leads l .absent h p)
    (hp : p.hasReported = false) :
    l.part ∉ (resultsOf l.request (said h)).map (·.part) := by
  rw [hleads.mem_results_iff, hp]
  exact Bool.false_ne_true

theorem Gathered.report (hgathered : s.Gathered h) {l : Slot} {p : Phase} {code : ResultCode}
    (hleads : Leads l .absent h p) (habsent : p ≠ .absent) (hp : p.hasReported = false)
    (hreport : σ.report? = some (l, code)) :
    Gathered { s with node := s.node.report l.request l.part code } (h ++ [σ]) := by
  obtain ⟨r, hr, -⟩ := hgathered.asks_of_leads hleads habsent
  have hnew := not_mem_results hleads hp
  have hrequests : (s.node.report l.request l.part code).requests
      = s.node.requests.modify l.request fun c => (c.report s.node.now l.part code).1 :=
    congrArg Node.requests (s.node.quiet_report l.request l.part code)
  refine ⟨(Node.length_requests_report ..).trans hgathered.numbered, fun request r' hmem => ?_,
    fun request c r' hc hr' => ?_⟩
  · rcases List.mem_append.1 hmem with hmem | hmem
    · exact hgathered.arrived request r' hmem
    · rw [← List.mem_singleton.1 hmem] at hreport
      simp [Stroke.report?] at hreport
  · rw [resultsOf_said_append request h hreport]
    rw [hrequests, List.getElem?_modify] at hc
    by_cases hrequest : l.request = request
    · subst hrequest
      obtain rfl := Option.some.inj (hr.symm.trans hr')
      rw [if_pos rfl]
      simp only [if_true] at hc
      obtain ⟨c', hc', rfl⟩ := Option.map_eq_some_iff.1 hc
      exact (hgathered.gathers _ c' r hc' hr).report hnew s.node.now code
    · rw [if_neg hrequest, List.append_nil]
      exact hgathered.gathers request c r' (by simpa [hrequest] using hc) hr'

/-- Nothing was reported under a number that was not given yet. -/
theorem Gathered.resultsOf_new (hgathered : s.Gathered h) (horderly : Orderly h) :
    resultsOf s.node.requests.length (said h) = [] := by
  by_contra hsome
  obtain ⟨result, hresult⟩ := List.exists_mem_of_ne_nil _ hsome
  obtain ⟨p, hleads⟩ := horderly ⟨s.node.requests.length, result.part⟩
  have hreported := hleads.mem_results_iff.1 (List.mem_map_of_mem hresult)
  obtain ⟨r, hr, -⟩ := hgathered.asks_of_leads hleads (by
    rintro rfl
    exact absurd hreported nofun)
  rw [hgathered.numbered, List.getElem?_eq_none_iff.2 (Nat.le_refl _)] at hr
  simp at hr

/-- The collector of a new request has gathered nothing yet. -/
theorem Gathered.arrive (hgathered : s.Gathered h) (horderly : Orderly h) {request : Nat}
    {r : DeleteRequest} (hrequest : request = s.node.requests.length) :
    (s.strike (.arrive request r)).Gathered (h ++ [.arrive request r]) := by
  have hrequests : (s.strike (.arrive request r)).node.requests
      = s.node.requests ++ [(Collector.start r.parts.size s.node.now).1] :=
    (congrArg Node.requests (s.quiet_strike_arrive request r)).trans rfl
  have hasked : (s.strike (.arrive request r)).asked = s.asked ++ [r] := rfl
  have hlast : (s.asked ++ [r])[request]? = some r := by
    rw [hrequest, hgathered.numbered, List.getElem?_append_right (Nat.le_refl _), Nat.sub_self]
    rfl
  have hsaid : said (h ++ [.arrive request r]) = said h := by
    rw [said_append]
    exact List.append_nil _
  refine ⟨?_, fun request' r' hmem => ?_, fun request' c r' hc hr' => ?_⟩
  · rw [hrequests, hasked, List.length_append, List.length_append, hgathered.numbered]
    rfl
  · rw [hasked]
    rcases List.mem_append.1 hmem with hmem | hmem
    · have hold := hgathered.arrived request' r' hmem
      rw [List.getElem?_append_left (List.getElem?_eq_some_iff.1 hold).1]
      exact hold
    · obtain ⟨rfl, rfl⟩ := Stroke.arrive.inj (List.mem_singleton.1 hmem)
      exact hlast
  · rw [hrequests] at hc
    rw [hasked] at hr'
    rw [hsaid]
    by_cases hnew : request' = request
    · subst hnew
      obtain rfl := Option.some.inj (hlast.symm.trans hr')
      rw [hrequest, List.getElem?_append_right (Nat.le_refl _), Nat.sub_self] at hc
      obtain rfl := Option.some.inj hc
      rw [hrequest, hgathered.resultsOf_new horderly]
      exact Collector.gathers_start ..
    · have hlt : request' < s.node.requests.length := by
        have hbound := (List.getElem?_eq_some_iff.1 hc).1
        rw [List.length_append, List.length_singleton] at hbound
        omega
      rw [List.getElem?_append_left hlt] at hc
      rw [List.getElem?_append_left (hgathered.numbered ▸ hlt)] at hr'
      exact hgathered.gathers request' c r' hc hr'

/-- At every moment the collectors have gathered what was reported. -/
theorem gathered_strikeAll (hfresh : s.Gathered []) (horderly : Orderly h)
    (htruthful : s.Truthful h) : (s.strikeAll h).Gathered h := by
  induction h using List.reverseRecOn with
  | nil => exact hfresh
  | append_singleton h σ ih =>
    obtain ⟨hinit, hnext⟩ := horderly.init
    obtain ⟨htruthful, htrue, -⟩ := truthful_append.1 htruthful
    have ih := ih hinit htruthful
    rw [strikeAll_append, strikeAll_cons, strikeAll_nil]
    generalize s.strikeAll h = m at ih htrue
    cases σ with
    | arrive request r => exact ih.arrive hinit htrue
    | refuse slot code =>
      obtain ⟨p, q, hleads, hstep⟩ := hnext slot
      cases hstep with
      | elsewhere helse => exact absurd rfl helse.slot?_ne
      | fail | refuse => exact ih.report hleads nofun rfl rfl
    | report slot code =>
      obtain ⟨p, q, hleads, hstep⟩ := hnext slot
      cases hstep with
      | elsewhere helse => exact absurd rfl helse.slot?_ne
      | report => exact ih.report hleads nofun rfl rfl
    | drive a =>
      obtain ⟨p, q, -, hstep⟩ := hnext ⟨0, 0⟩
      have haside : a.isAside = true := by
        cases hstep with
        | elsewhere helse => exact helse
      obtain ⟨hrequests, hasked, -, -⟩ := m.act_aside haside
      exact ih.pass hrequests hasked rfl nofun
    | _ => exact ih.pass rfl rfl rfl nofun

end Session

/-! ### Answers -/

namespace Node

/-- The answer to a request, once it is complete. -/
def response? (n : Node) (request : Nat) : Option DeleteResponse :=
  n.requests[request]?.bind (·.response)

theorem poll_eq_ready_iff (n : Node) (request : Nat) (response : DeleteResponse) :
    n.poll request = .ready response ↔ n.response? request = some response := by
  rw [poll, response?]
  cases n.requests[request]? with
  | none => simp
  | some c =>
    cases hresponse : c.response with
    | none =>
      simp only [Option.bind_some, hresponse]
      split <;> simp
    | some response' => simp [hresponse]

theorem poll_eq_waiting_iff (n : Node) (request : Nat) :
    n.poll request = .waiting ↔ request < n.requests.length ∧ n.response? request = none ∧
      ∃ w ∈ n.store.heldWrites, w.token.isOf request = true := by
  rw [poll, response?, ← List.any_eq_true]
  cases hc : n.requests[request]? with
  | none =>
    have hlen := List.getElem?_eq_none_iff.1 hc
    simp [Nat.not_lt.2 hlen]
  | some c =>
    have hlen := (List.getElem?_eq_some_iff.1 hc).1
    cases hresponse : c.response with
    | none =>
      simp only [Option.bind_some, hresponse, hlen, true_and]
      split <;> simp_all
    | some response => simp [hresponse]

theorem response?_report {n : Node} {request : Nat} {response : DeleteResponse}
    (h : n.response? request = some response) (request' : Nat) (part : PartId)
    (code : ResultCode) : (n.report request' part code).response? request = some response := by
  have hrequests : (n.report request' part code).requests
      = n.requests.modify request' fun c => (c.report n.now part code).1 :=
    congrArg Node.requests (n.quiet_report request' part code)
  obtain ⟨c, hc, hresponse⟩ := Option.bind_eq_some_iff.1 h
  rw [response?, hrequests, List.getElem?_modify, hc]
  by_cases heq : request' = request
  · simp [heq, Collector.response_report hresponse]
  · simp [heq, hresponse]

end Node

namespace Session

open Phase

variable {s : Session} {h h' : List Stroke} {σ : Stroke} {request : Nat} {response : DeleteResponse}

theorem response?_strike {l : Slot} {p q : Phase} (hnext : Next l p σ q)
    (hresponse : s.node.response? request = some response) :
    (s.strike σ).node.response? request = some response := by
  cases σ with
  | refuse slot code => exact Node.response?_report hresponse ..
  | report slot code => exact Node.response?_report hresponse ..
  | arrive request' r =>
    have hrequests : (s.strike (.arrive request' r)).node.requests
        = s.node.requests ++ [(Collector.start r.parts.size s.node.now).1] :=
      (congrArg Node.requests (s.quiet_strike_arrive request' r)).trans rfl
    obtain ⟨c, hc, hsome⟩ := Option.bind_eq_some_iff.1 hresponse
    rw [Node.response?, hrequests,
      List.getElem?_append_left (List.getElem?_eq_some_iff.1 hc).1, hc]
    exact hsome
  | drive a =>
    have haside : a.isAside = true := by
      cases hnext with
      | elsewhere helse => exact helse
    have hrequests : (s.strike (.drive a)).node.requests = s.node.requests :=
      (s.act_aside haside).1
    rw [Node.response?, hrequests]
    exact hresponse
  | _ => exact hresponse

/-- An answer that is complete stays as it is. -/
theorem response?_strikeAll (horderly : Orderly (h ++ h'))
    (hresponse : (s.strikeAll h).node.response? request = some response) :
    (s.strikeAll (h ++ h')).node.response? request = some response := by
  induction h' using List.reverseRecOn with
  | nil => rwa [List.append_nil]
  | append_singleton h' σ ih =>
    rw [← List.append_assoc] at horderly ⊢
    obtain ⟨hinit, hnext⟩ := horderly.init
    obtain ⟨p, q, -, hstep⟩ := hnext ⟨0, 0⟩
    rw [strikeAll_append, strikeAll_cons, strikeAll_nil]
    exact response?_strike hstep (ih hinit)

/-- The answer to a request is complete with its last report, and there is none before. -/
theorem Gathered.response?_eq (hgathered : s.Gathered h) {r : DeleteRequest}
    (hr : s.asked[request]? = some r) :
    ((resultsOf request (said h)).length = r.parts.size → ∃ latency,
        s.node.response? request = some ⟨Collector.inOrder (resultsOf request (said h)), latency⟩) ∧
      ((resultsOf request (said h)).length < r.parts.size → s.node.response? request = none) := by
  have hlt : request < s.node.requests.length := by
    rw [hgathered.numbered]
    exact (List.getElem?_eq_some_iff.1 hr).1
  have hgathers := hgathered.gathers request _ r (List.getElem?_eq_getElem hlt) hr
  have hresponse : s.node.response? request = s.node.requests[request].response := by
    rw [Node.response?, List.getElem?_eq_getElem hlt]
    rfl
  rw [hresponse]
  refine ⟨fun hlen => ?_, fun hlt => (hgathers.incomplete hlt).2⟩
  obtain ⟨-, latency, hdone⟩ := hgathers.complete (Nat.le_of_eq hlen.symm)
  rw [← hlen, List.take_length] at hdone
  exact ⟨latency, hdone⟩

/-- There is room in the answer for all that was reported. -/
theorem Gathered.length_le (hgathered : s.Gathered h) (horderly : Orderly h) {r : DeleteRequest}
    (hr : s.asked[request]? = some r) :
    (resultsOf request (said h)).length ≤ r.parts.size := by
  obtain ⟨hnodup, hsubset⟩ := hgathered.results_subset horderly hr
  have hle := (List.subperm_of_subset hnodup hsubset).length_le
  rwa [List.length_map, OrderedMap.keys, List.length_map] at hle

/-- An answer that is complete has as many results as the request has partitions. -/
theorem Gathered.length_eq (hgathered : s.Gathered h) (horderly : Orderly h) {r : DeleteRequest}
    (hr : s.asked[request]? = some r) (hresponse : s.node.response? request = some response) :
    (resultsOf request (said h)).length = r.parts.size := by
  by_contra hne
  have hlt := Nat.lt_of_le_of_ne (hgathered.length_le horderly hr) hne
  rw [(hgathered.response?_eq hr).2 hlt] at hresponse
  simp at hresponse

/-- The partitions that have reported are all those of the request if they are as many. -/
theorem Gathered.perm_keys (hgathered : s.Gathered h) (horderly : Orderly h) {r : DeleteRequest}
    (hr : s.asked[request]? = some r)
    (hlen : (resultsOf request (said h)).length = r.parts.size) :
    ((resultsOf request (said h)).map (·.part)).Perm r.parts.keys := by
  obtain ⟨hnodup, hsubset⟩ := hgathered.results_subset horderly hr
  have hsize : r.parts.keys.length = r.parts.size := List.length_map ..
  exact (List.subperm_of_subset hnodup hsubset).perm_of_length_le
    (by rw [hsize, List.length_map, hlen])

/-- The answer to a request is complete when all its partitions have reported. -/
theorem Gathered.response_iff (hgathered : s.Gathered h) (horderly : Orderly h)
    {r : DeleteRequest} (hr : s.asked[request]? = some r) :
    (∃ response, s.node.response? request = some response) ↔
      ∀ part ∈ r.parts.keys, part ∈ (resultsOf request (said h)).map (·.part) := by
  constructor
  · rintro ⟨response, hsome⟩ part hpart
    have hlen := hgathered.length_eq horderly hr hsome
    exact (hgathered.perm_keys horderly hr hlen).mem_iff.2 hpart
  · intro hall
    have hge := (List.subperm_of_subset (Node.nodup_keys r) hall).length_le
    rw [OrderedMap.keys, List.length_map, List.length_map] at hge
    obtain ⟨latency, hsome⟩ := (hgathered.response?_eq hr).1
      (Nat.le_antisymm (hgathered.length_le horderly hr) hge)
    exact ⟨_, hsome⟩

/-- A complete answer has what was reported, with each partition of the request once. -/
theorem Gathered.results_eq (hgathered : s.Gathered h) (horderly : Orderly h)
    {r : DeleteRequest} (hr : s.asked[request]? = some r)
    (hresponse : s.node.response? request = some response) :
    response.results = Collector.inOrder (resultsOf request (said h)) ∧
      response.results.map (·.part) = r.parts.keys := by
  have hlen := hgathered.length_eq horderly hr hresponse
  obtain ⟨latency, hsome⟩ := (hgathered.response?_eq hr).1 hlen
  obtain rfl := Option.some.inj (hresponse.symm.trans hsome)
  exact ⟨rfl, Collector.inOrder_parts (Node.ordered_keys r)
    (hgathered.perm_keys horderly hr hlen)⟩

end Session

end EdgeDeletion
