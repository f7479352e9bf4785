/-
Reading a byte string by positions.

The codecs take bytes off the front of what is left of a byte string.  Here the string
stays as it is and is read at positions, as a machine does it: an index beyond the end
is a fault, from which nothing comes, and a loop goes round as often as it is told to.
A reader by positions that gives the same as a reader of the front has no such fault.

* `Scan` — a reader by positions;
* `Scan.Follows` — it gives what a reader of the front gives, whatever the bytes are;
* `Scan.Follows.bind` — readers follow one after the other what they follow alone.
-/
import EdgeDeletion.Bytes.Varint

namespace EdgeDeletion

/-- Where a reader stands, and how often it went round its loop. -/
structure Cursor where
  position : Nat
  rounds : Nat

/-- A reader by positions.  From a read out of range nothing comes, not even a failure. -/
def Scan (ε α : Type) : Type := Cursor → Option (Except ε α × Cursor)

namespace Scan

variable {ε α β γ : Type}

instance : Monad (Scan ε) where
  pure a := fun c => some (.ok a, c)
  bind m k := fun c =>
    match m c with
    | none => none
    | some (.error e, c') => some (.error e, c')
    | some (.ok a, c') => k a c'

def fail (e : ε) : Scan ε α := fun c => some (.error e, c)

def position : Scan ε Nat := fun c => some (.ok c.position, c)

def moveTo (i : Nat) : Scan ε Unit := fun c => some (.ok (), { c with position := i })

/-- Counts a round of the loop. -/
def round : Scan ε Unit := fun c => some (.ok (), { c with rounds := c.rounds + 1 })

/-- The element at an index, which has to be in range. -/
def element (xs : List γ) (i : Nat) : Scan ε γ := fun c => xs[i]?.map fun x => (.ok x, c)

/-- The elements from an index up to another one, which both have to be in range. -/
def slice (xs : List γ) (i j : Nat) : Scan ε (List γ) := fun c =>
  if i ≤ j ∧ j ≤ xs.length then some (.ok ((xs.drop i).take (j - i)), c) else none

/-- Copies elements into an array, which they have to fill. -/
def fill (n : Nat) (xs : List γ) : Scan ε (List γ) := fun c =>
  if xs.length = n then some (.ok xs, c) else none

/-! ### Reads with a check -/

section Checked

variable (payload : Bytes)

/-- Reads the byte at the position, if there is one. -/
def next (e : ε) : Scan ε UInt8 := do
  let i ← position
  if i < payload.length then
    let b ← element payload i
    moveTo (i + 1)
    pure b
  else fail e

/-- Reads a number of bytes from the position on, if there are as many. -/
def take (n : Nat) (e : ε) : Scan ε Bytes := do
  let i ← position
  if i + n ≤ payload.length then
    let part ← slice payload i (i + n)
    moveTo (i + n)
    pure part
  else fail e

/-- Reads a variable-length number of at most `count` bytes. -/
def varintWithin (e : ε) : (count : Nat) → Scan ε Nat
  | 0 => fail e
  | n + 1 => do
    let b ← next payload e
    if n = 0 ∧ 1 < b.toNat % 128 then fail e
    else if b.toNat < 128 then pure b.toNat
    else
      let high ← varintWithin e n
      pure (b.toNat % 128 + 128 * high)

def varint (e : ε) : Scan ε UInt64 := do
  let n ← varintWithin payload e 10
  pure (UInt64.ofNat n)

end Checked

/-! ### Readers of the front -/

/-- The reader by positions gives what the reader of the front gives, and stands where the other
one has left off.  It stays out of the loop. -/
structure Follows (payload : Bytes) (m : Scan ε α) (f : Bytes → Except ε (α × Bytes)) : Prop where
  ok : ∀ {c : Cursor} {a : α} {rest : Bytes}, c.position ≤ payload.length →
    f (payload.drop c.position) = .ok (a, rest) →
      ∃ i ≤ payload.length, m c = some (.ok a, ⟨i, c.rounds⟩) ∧ payload.drop i = rest
  error : ∀ {c : Cursor} {e : ε}, c.position ≤ payload.length →
    f (payload.drop c.position) = .error e → ∃ i, m c = some (.error e, ⟨i, c.rounds⟩)

variable {payload : Bytes}

namespace Follows

theorem congr {m : Scan ε α} {f g : Bytes → Except ε (α × Bytes)} (h : Follows payload m f)
    (hfg : ∀ bs, g bs = f bs) : Follows payload m g := by
  rwa [funext hfg]

theorem pure (a : α) : Follows payload (Pure.pure a : Scan ε α) fun bs => .ok (a, bs) where
  ok {c} := by
    intro _ _ hc h
    simp only [Except.ok.injEq, Prod.mk.injEq] at h
    exact ⟨c.position, hc, by rw [← h.1]; rfl, h.2⟩
  error := by
    intro _ _ _ h
    simp at h

theorem fail (e : ε) : Follows payload (Scan.fail e : Scan ε α) fun _ => .error e where
  ok := by
    intro _ _ _ _ h
    simp at h
  error {c} := by
    intro _ _ h
    exact ⟨c.position, by rw [← Except.error.inj h]; rfl⟩

/-- Readers that stand one after the other follow readers of the front that do.  What the second
one reads may depend on what the first one can have read. -/
theorem bind {m : Scan ε α} {f : Bytes → Except ε (α × Bytes)} {k : α → Scan ε β}
    {g : α → Bytes → Except ε (β × Bytes)} (hm : Follows payload m f)
    (hk : ∀ a, (∃ bs rest, f bs = .ok (a, rest)) → Follows payload (k a) (g a)) :
    Follows payload (m >>= k) fun bs => f bs >>= fun p => g p.1 p.2 where
  ok {c b after} := by
    intro hc h
    cases hf : f (payload.drop c.position) with
    | error e => simp [hf, Bind.bind, Except.bind] at h
    | ok p =>
      obtain ⟨a, rest⟩ := p
      obtain ⟨i, hi, hrun, rfl⟩ := hm.ok hc hf
      simp only [hf, Bind.bind, Except.bind] at h
      obtain ⟨j, hj, hrun', hrest⟩ := (hk a ⟨_, _, hf⟩).ok (c := ⟨i, c.rounds⟩) hi h
      exact ⟨j, hj, by simp only [Bind.bind, hrun, hrun'], hrest⟩
  error {c e} := by
    intro hc h
    cases hf : f (payload.drop c.position) with
    | error e' =>
      obtain ⟨i, hrun⟩ := hm.error hc hf
      simp only [hf, Bind.bind, Except.bind, Except.error.injEq] at h
      exact ⟨i, by simp only [Bind.bind, hrun, h]⟩
    | ok p =>
      obtain ⟨a, rest⟩ := p
      obtain ⟨i, hi, hrun, rfl⟩ := hm.ok hc hf
      simp only [hf, Bind.bind, Except.bind] at h
      obtain ⟨j, hrun'⟩ := (hk a ⟨_, _, hf⟩).error (c := ⟨i, c.rounds⟩) hi h
      exact ⟨j, by simp only [Bind.bind, hrun, hrun']⟩

theorem ite {p : Prop} [Decidable p] {m m' : Scan ε α} {f f' : Bytes → Except ε (α × Bytes)}
    (h : p → Follows payload m f) (h' : ¬p → Follows payload m' f') :
    Follows payload (if p then m else m') fun bs => if p then f bs else f' bs := by
  split
  · exact h ‹p›
  · exact h' ‹¬p›

/-- Where a reader stands, said by what is left. -/
theorem position :
    Follows payload (Scan.position : Scan ε Nat) fun bs => .ok (payload.length - bs.length, bs) where
  ok {c} := by
    intro _ _ hc h
    simp only [Except.ok.injEq, Prod.mk.injEq, List.length_drop] at h
    have hi : payload.length - (payload.length - c.position) = c.position := by omega
    exact ⟨c.position, hc, by rw [← h.1, hi]; rfl, h.2⟩
  error := by
    intro _ _ _ h
    simp at h

/-- An element in range does not fault. -/
theorem element {xs : List α} {i : Nat} {x : α} (h : xs[i]? = some x) :
    Follows payload (Scan.element xs i : Scan ε α) fun bs => .ok (x, bs) := by
  have hrun : (Scan.element xs i : Scan ε α) = Pure.pure x := by
    funext c
    simp only [Scan.element, h, Option.map_some]
    rfl
  rw [hrun]
  exact pure x

/-- An array that is filled does not fault. -/
theorem fill {n : Nat} {xs : List α} (h : xs.length = n) :
    Follows payload (Scan.fill n xs : Scan ε (List α)) fun bs => .ok (xs, bs) := by
  have hrun : (Scan.fill n xs : Scan ε (List α)) = Pure.pure xs := by
    funext c
    simp only [Scan.fill, h, if_true]
    rfl
  rw [hrun]
  exact pure xs

theorem next (e : ε) : Follows payload (Scan.next payload e) fun
    | [] => .error e
    | b :: bs => .ok (b, bs) where
  ok {c b rest} := by
    intro hc h
    cases hdrop : payload.drop c.position with
    | nil => simp [hdrop] at h
    | cons b' rest' =>
      simp only [hdrop, Except.ok.injEq, Prod.mk.injEq] at h
      obtain ⟨rfl, rfl⟩ := h
      have hlen := congrArg List.length hdrop
      rw [List.length_drop, List.length_cons] at hlen
      have hlt : c.position < payload.length := by omega
      rw [List.drop_eq_getElem_cons hlt, List.cons.injEq] at hdrop
      refine ⟨c.position + 1, hlt, ?_, hdrop.2⟩
      simp [Scan.next, Bind.bind, Scan.position, hlt, Scan.element, hdrop.1, Scan.moveTo, Pure.pure]
  error {c e'} := by
    intro hc h
    cases hdrop : payload.drop c.position with
    | cons b' rest' => simp [hdrop] at h
    | nil =>
      simp only [hdrop, Except.error.injEq] at h
      have hge : ¬c.position < payload.length := by
        have := List.drop_eq_nil_iff.1 hdrop
        omega
      refine ⟨c.position, ?_⟩
      simp [Scan.next, Bind.bind, Scan.position, hge, Scan.fail, h]

theorem take (n : Nat) (e : ε) : Follows payload (Scan.take payload n e) fun bs =>
    match Bytes.take? n bs with
    | some p => .ok p
    | none => .error e where
  ok {c part rest} := by
    intro hc h
    by_cases hn : c.position + n ≤ payload.length
    · have hle : n ≤ payload.length - c.position := by omega
      simp only [Bytes.take?, List.length_drop, hle, if_true, Except.ok.injEq, Prod.mk.injEq] at h
      refine ⟨c.position + n, hn, ?_, by rw [← h.2, List.drop_drop]⟩
      simp [Scan.take, Bind.bind, Scan.position, hn, Scan.slice, Scan.moveTo, Pure.pure, h.1]
    · have hle : ¬n ≤ payload.length - c.position := by omega
      simp [Bytes.take?, hle] at h
  error {c e'} := by
    intro hc h
    by_cases hn : c.position + n ≤ payload.length
    · have hle : n ≤ payload.length - c.position := by omega
      simp [Bytes.take?, hle] at h
    · have hle : ¬n ≤ payload.length - c.position := by omega
      simp only [Bytes.take?, List.length_drop, hle, if_false, Except.error.injEq] at h
      refine ⟨c.position, ?_⟩
      simp [Scan.take, Bind.bind, Scan.position, hn, Scan.fail, h]

theorem varintWithin (e : ε) (count : Nat) : Follows payload (Scan.varintWithin payload e count)
    fun bs =>
      match Varint.decodeWithin count bs with
      | (some n, rest) => .ok (n, rest)
      | (none, _) => .error e := by
  induction count with
  | zero => exact fail e
  | succ n ih =>
    refine congr (bind (next e) fun b _ => ite (fun _ => fail e) fun _ => ite (fun _ => pure _)
      fun _ => bind ih fun high _ => pure (b.toNat % 128 + 128 * high)) ?_
    intro bs
    cases bs with
    | nil => rfl
    | cons b bs =>
      by_cases hfits : n = 0 ∧ 1 < b.toNat % 128
      · simp [Varint.decodeWithin, Bind.bind, Except.bind, hfits]
      · by_cases hb : b.toNat < 128
        · simp [Varint.decodeWithin, Bind.bind, Except.bind, hfits, hb]
        · rcases hhigh : Varint.decodeWithin n bs with ⟨_ | high, rest⟩
          · simp [Varint.decodeWithin, Bind.bind, Except.bind, hfits, hb, hhigh]
          · simp [Varint.decodeWithin, Bind.bind, Except.bind, hfits, hb, hhigh]

theorem varint (e : ε) : Follows payload (Scan.varint payload e) fun bs =>
    match Varint.decode bs with
    | (some v, rest) => .ok (v, rest)
    | (none, _) => .error e := by
  refine congr (bind (varintWithin e 10) fun n _ => pure (UInt64.ofNat n)) fun bs => ?_
  simp only [Varint.decode, Bind.bind, Except.bind]
  obtain ⟨_ | n, rest⟩ := Varint.decodeWithin 10 bs
  · rfl
  · rfl

end Follows

end Scan

end EdgeDeletion
