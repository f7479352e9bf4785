/-
The order of the keys of edges.

A key of an edge says three things: the partition, the edge, and the role of the key.
Keys are compared byte by byte; what they say is compared component by component, types
and ranks as signed numbers, vertices as bytes, and roles with the locks first, by their
ids, then the record, then the stale versions, by their numbers.  Both orders are the
same (`edge_keys_ordered`).

* `Key.Role` — the role of a key, in its order;
* `Key.before_tail` — the bytes after a prefix are ordered like the roles;
* `Key.before_ofRole` — the keys are ordered like what they say.
-/
import EdgeDeletion.Proofs.ByteOrder

namespace EdgeDeletion

open KeyOrder (before before_pair)

namespace Key

/-! ### Roles -/

/-- What a key of an edge is for. -/
inductive Role where
  /-- A placeholder that marks the edge as locked. -/
  | lock (id : Bytes)
  /-- The current record. -/
  | record
  /-- An old version. -/
  | stale (version : UInt64)
deriving DecidableEq

/-- Locks come before the record, and the record before the stale versions. -/
def Role.before : Role → Role → Bool
  | .lock a, .lock b => KeyOrder.before a b
  | .lock _, .record => true
  | .lock _, .stale _ => true
  | .record, .stale _ => true
  | .stale v, .stale w => KeyOrder.before v w
  | .record, .lock _ => false
  | .record, .record => false
  | .stale _, .lock _ => false
  | .stale _, .record => false

instance : KeyOrder Role where
  before := Role.before
  irrefl r := by cases r <;> simp [Role.before, KeyOrder.irrefl]
  trans {a b c} h₁ h₂ := by
    cases a <;> cases b <;> cases c <;> simp only [Role.before, Bool.false_eq_true] at * <;>
      exact KeyOrder.trans h₁ h₂
  connected {a b} h₁ h₂ := by
    cases a <;> cases b <;> simp only [Role.before, Bool.true_eq_false] at * <;>
      exact congrArg _ (KeyOrder.connected h₁ h₂)

/-- The key of an edge in a role. -/
def ofRole (vidLen : Nat) (part : PartId) (e : Edge) : Role → Bytes
  | .lock id => lock vidLen part e id
  | .record => record vidLen part e
  | .stale version => stale vidLen part e version

/-- What stands behind the prefix of the edge. -/
def Role.tail : Role → Bytes
  | .lock id => lockByte :: id
  | .record => [recordByte]
  | .stale version => recordByte :: Ordered.ofUInt64 version

variable {vidLen : Nat} {part part' : PartId} {e e' : Edge}

theorem ofRole_eq (vidLen : Nat) (part : PartId) (e : Edge) (r : Role) :
    ofRole vidLen part e r = edgePrefix vidLen part e ++ r.tail := by
  cases r with
  | lock id => rfl
  | record => rfl
  | stale version => simp [ofRole, stale, record, Role.tail]

/-- Behind one prefix the keys are ordered like their roles. -/
theorem before_tail : ∀ r r' : Role, before r.tail r'.tail = before r r'
  | .lock id, .lock id' => KeyOrder.before_pair_self lockByte id id'
  | .lock _, .record => rfl
  | .lock _, .stale _ => rfl
  | .record, .lock _ => rfl
  | .record, .record => rfl
  -- the record ends where the number of a stale version begins
  | .record, .stale _ => rfl
  | .stale _, .lock _ => rfl
  | .stale _, .record => rfl
  | .stale v, .stale w =>
    (KeyOrder.before_pair_self recordByte (Ordered.ofUInt64 v) (Ordered.ofUInt64 w)).trans
      (Ordered.before_ofUInt64 v w)

/-! ### Keys -/

/-- A key, with each component as the edge has it. -/
theorem ofRole_of_hasWidth (he : e.hasWidth vidLen = true) (part : PartId) (r : Role) :
    ofRole vidLen part e r = edgeTag :: (Ordered.ofUInt32 part ++ (e.src ++
      (Ordered.ofInt32 e.type ++ (Ordered.ofInt64 e.rank ++ (e.dst ++ r.tail))))) := by
  rw [ofRole_eq, edgePrefix_append he]

/-- The keys of edges are ordered like their components. -/
theorem before_ofRole (he : e.hasWidth vidLen = true) (he' : e'.hasWidth vidLen = true)
    (part part' : PartId) (r r' : Role) :
    before (ofRole vidLen part e r) (ofRole vidLen part' e' r') =
      before (part, e.src, e.type, e.rank, e.dst, r)
        (part', e'.src, e'.type, e'.rank, e'.dst, r') := by
  have hw := Edge.hasWidth_iff.1 he
  have hw' := Edge.hasWidth_iff.1 he'
  -- every component has the same length on both sides, so each is compared on its own
  have hpart : (Ordered.ofUInt32 part).length = (Ordered.ofUInt32 part').length := by
    simp
  have hsrc : e.src.length = e'.src.length := by rw [hw.1, hw'.1]
  have htype : (Ordered.ofInt32 e.type).length = (Ordered.ofInt32 e'.type).length := by
    simp
  have hrank : (Ordered.ofInt64 e.rank).length = (Ordered.ofInt64 e'.rank).length := by
    simp
  have hdst : e.dst.length = e'.dst.length := by rw [hw.2, hw'.2]
  rw [ofRole_of_hasWidth he, ofRole_of_hasWidth he', KeyOrder.before_cons,
    KeyOrder.before_pair_self]
  simp only [KeyOrder.before_append hpart, KeyOrder.before_append hsrc,
    KeyOrder.before_append htype, KeyOrder.before_append hrank, KeyOrder.before_append hdst,
    before_pair, before_tail, Ordered.before_ofUInt32, Ordered.before_ofInt32,
    Ordered.before_ofInt64]

/-- The order of the identities in a space, written out. -/
theorem before_edgeId (space : SpaceId) (part part' : PartId) (e e' : Edge) :
    before (EdgeId.mk ⟨space, part⟩ e) (EdgeId.mk ⟨space, part'⟩ e') =
      before (part, e.src, e.type, e.rank, e.dst) (part', e'.src, e'.type, e'.rank, e'.dst) := by
  show before ((space, part), e.src, e.type, e.rank, e.dst)
    ((space, part'), e'.src, e'.type, e'.rank, e'.dst) = _
  rw [KeyOrder.before_pair_assoc, KeyOrder.before_pair_self]

/-- A tuple that ends in the same component on both sides is compared without it. -/
theorem before_components_self (part part' : PartId) (e e' : Edge) (r : Role) :
    before (part, e.src, e.type, e.rank, e.dst, r)
        (part', e'.src, e'.type, e'.rank, e'.dst, r) =
      before (part, e.src, e.type, e.rank, e.dst) (part', e'.src, e'.type, e'.rank, e'.dst) := by
  simp [before_pair, KeyOrder.irrefl]

/-- The prefix of an edge stands in front of its own keys only. -/
theorem eq_of_edgePrefix_ofRole (he : e.hasWidth vidLen = true) (he' : e'.hasWidth vidLen = true)
    {r : Role} (h : edgePrefix vidLen part e <+: ofRole vidLen part' e' r) :
    part = part' ∧ e = e' := by
  have hlen : (edgePrefix vidLen part e).length = (edgePrefix vidLen part' e').length := by
    rw [length_edgePrefix, length_edgePrefix]
  rw [ofRole_eq] at h
  have hpre : edgePrefix vidLen part e = edgePrefix vidLen part' e' :=
    (List.prefix_of_prefix_length_le h (List.prefix_append ..) (Nat.le_of_eq hlen)).eq_of_length
      hlen
  exact edgePrefix_inj he he' hpre

/-- **The keys of edges are ordered like what they say**: the bytes of two keys compare
like the partitions, the sources, the types, the ranks, the destinations and the roles.
So equal keys are keys of one edge in one role, the records of a space stand in the order
of the identities of its edges, and the prefix of an edge starts no key of another. -/
theorem edge_keys_ordered {vidLen : Nat} {part part' : PartId} {e e' : Edge}
    (he : e.hasWidth vidLen = true) (he' : e'.hasWidth vidLen = true) :
    (∀ r r' : Role, before (ofRole vidLen part e r) (ofRole vidLen part' e' r') =
      before (part, e.src, e.type, e.rank, e.dst, r)
        (part', e'.src, e'.type, e'.rank, e'.dst, r')) ∧
    (∀ r r' : Role, ofRole vidLen part e r = ofRole vidLen part' e' r' →
      part = part' ∧ e = e' ∧ r = r') ∧
    (∀ space : SpaceId, before (record vidLen part e) (record vidLen part' e') =
      before (EdgeId.mk ⟨space, part⟩ e) (EdgeId.mk ⟨space, part'⟩ e')) ∧
    ∀ r : Role, edgePrefix vidLen part e <+: ofRole vidLen part' e' r → part = part' ∧ e = e' := by
  refine ⟨before_ofRole he he' part part', fun r r' h => ?_, fun space => ?_,
    fun r => eq_of_edgePrefix_ofRole he he'⟩
  · -- keys that are the same precede each other on neither side
    have hab := before_ofRole he he' part part' r r'
    have hba := before_ofRole he' he part' part r' r
    rw [h, KeyOrder.irrefl] at hab hba
    have hsame := KeyOrder.connected hab.symm hba.symm
    obtain ⟨src, type, rank, dst⟩ := e
    obtain ⟨src', type', rank', dst'⟩ := e'
    simp only [Prod.mk.injEq] at hsame
    obtain ⟨hpart, rfl, rfl, rfl, rfl, hr⟩ := hsame
    exact ⟨hpart, rfl, hr⟩
  · calc before (record vidLen part e) (record vidLen part' e')
        = before (part, e.src, e.type, e.rank, e.dst, Role.record)
            (part', e'.src, e'.type, e'.rank, e'.dst, Role.record) :=
          before_ofRole he he' part part' .record .record
      _ = before (part, e.src, e.type, e.rank, e.dst)
            (part', e'.src, e'.type, e'.rank, e'.dst) := before_components_self ..
      _ = before (EdgeId.mk ⟨space, part⟩ e) (EdgeId.mk ⟨space, part'⟩ e') :=
          (before_edgeId space part part' e e').symm

/-- All keys of an edge in the reverse direction stand before those of the edge itself, even
a stale version before a lock: the type decides before the role does. -/
theorem edge_keys_ordered_sample :
    (Edge.mk [1] (-5) 0 [2]).hasWidth 1 = true ∧ (Edge.mk [1] 5 0 [2]).hasWidth 1 = true ∧
      before (ofRole 1 3 ⟨[1], -5, 0, [2]⟩ (.stale 7)) (ofRole 1 3 ⟨[1], 5, 0, [2]⟩ (.lock [])) =
        true :=
  ⟨by decide +kernel, by decide +kernel,
    ((edge_keys_ordered (by decide +kernel) (by decide +kernel)).1 _ _).trans
      (by decide +kernel)⟩

end Key

end EdgeDeletion
