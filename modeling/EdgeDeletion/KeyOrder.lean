/-
Strict orders on keys.

`KeyOrder κ` is a decidable strict order in which any two different keys are
comparable.  Instances: numbers by value, signed words by their signed value,
lists and pairs lexicographically, texts by their UTF-8 bytes.  A structure
takes its order from its components through `KeyOrder.through`.

* `KeyOrder.eq_of_same` — keys that neither precede each other are equal;
* `KeyOrder.asymm` — no two keys precede each other.
-/

namespace EdgeDeletion

universe u v

/-- A strict order in which any two different keys are comparable. -/
class KeyOrder (κ : Type u) where
  /-- The left key comes strictly before the right key. -/
  before : κ → κ → Bool
  irrefl : ∀ a, before a a = false
  trans : ∀ {a b c}, before a b = true → before b c = true → before a c = true
  connected : ∀ {a b}, before a b = false → before b a = false → a = b

namespace KeyOrder

variable {κ : Type u} [KeyOrder κ]

theorem asymm {a b : κ} (h : before a b = true) : before b a = false := by
  cases hb : before b a with
  | false => rfl
  | true => simpa [irrefl] using trans h hb

theorem eq_of_same {a b : κ} (hab : ¬ before a b = true) (hba : ¬ before b a = true) : a = b :=
  connected (by simpa using hab) (by simpa using hba)

theorem ne_of_before {a b : κ} (h : before a b = true) : a ≠ b := by
  rintro rfl
  simp [irrefl] at h

/-- The order that a key takes over from a component which determines it. -/
@[reducible] def through {α : Type v} [KeyOrder α] (f : κ → α)
    (inj : ∀ {a b}, f a = f b → a = b) : KeyOrder κ where
  before a b := before (f a) (f b)
  irrefl a := irrefl (f a)
  trans := trans
  connected h₁ h₂ := inj (connected h₁ h₂)

instance : KeyOrder Nat where
  before a b := decide (a < b)
  irrefl a := by simp
  trans h₁ h₂ := by simp only [decide_eq_true_eq] at *; omega
  connected h₁ h₂ := by simp only [decide_eq_false_iff_not] at *; omega

instance : KeyOrder Int where
  before a b := decide (a < b)
  irrefl a := by simp
  trans h₁ h₂ := by simp only [decide_eq_true_eq] at *; omega
  connected h₁ h₂ := by simp only [decide_eq_false_iff_not] at *; omega

instance : KeyOrder UInt8 := through UInt8.toNat UInt8.toNat_inj.1
instance : KeyOrder UInt32 := through UInt32.toNat UInt32.toNat_inj.1
instance : KeyOrder UInt64 := through UInt64.toNat UInt64.toNat_inj.1
instance : KeyOrder Int32 := through Int32.toInt Int32.toInt_inj.1
instance : KeyOrder Int64 := through Int64.toInt Int64.toInt_inj.1

/-- Pairs compare by the first component and, where it is equal, by the second. -/
instance {α : Type u} {β : Type v} [KeyOrder α] [KeyOrder β] : KeyOrder (α × β) where
  before a b := before a.1 b.1 || (!before b.1 a.1 && before a.2 b.2)
  irrefl a := by simp [irrefl]
  trans {a b c} h₁ h₂ := by
    simp only [Bool.or_eq_true, Bool.and_eq_true, Bool.not_eq_true'] at *
    rcases h₁ with h₁ | ⟨n₁, h₁⟩ <;> rcases h₂ with h₂ | ⟨n₂, h₂⟩
    · exact .inl (trans h₁ h₂)
    · cases h : before b.1 c.1 with
      | true => exact .inl (trans h₁ h)
      | false => exact .inl (connected h n₂ ▸ h₁)
    · cases h : before a.1 b.1 with
      | true => exact .inl (trans h h₂)
      | false => exact .inl (connected h n₁ ▸ h₂)
    · cases h : before a.1 b.1 with
      | true =>
        cases h' : before b.1 c.1 with
        | true => exact .inl (trans h h')
        | false => exact .inl (connected h' n₂ ▸ h)
      | false => exact .inr ⟨connected h n₁ ▸ n₂, trans h₁ h₂⟩
  connected {a b} h₁ h₂ := by
    simp only [Bool.or_eq_false_iff, Bool.and_eq_false_iff, Bool.not_eq_false'] at *
    obtain ⟨h₁, h₁'⟩ := h₁
    obtain ⟨h₂, h₂'⟩ := h₂
    have hfst := connected h₁ h₂
    simp only [h₁, h₂, Bool.false_eq_true, false_or] at h₁' h₂'
    exact Prod.ext hfst (connected h₁' h₂')

/-- Lists compare at the first place where they differ; a list that ends there comes first. -/
def listBefore {α : Type u} [KeyOrder α] : List α → List α → Bool
  | _, [] => false
  | [], _ :: _ => true
  | a :: as, b :: bs => before a b || (!before b a && listBefore as bs)

theorem listBefore_irrefl {α : Type u} [KeyOrder α] : ∀ as : List α, listBefore as as = false
  | [] => rfl
  | a :: as => by simp [listBefore, irrefl, listBefore_irrefl as]

theorem listBefore_trans {α : Type u} [KeyOrder α] : ∀ {as bs cs : List α},
    listBefore as bs = true → listBefore bs cs = true → listBefore as cs = true
  | _, [], _, h, _ => by simp [listBefore] at h
  | _, _ :: _, [], _, h => by simp [listBefore] at h
  | [], _ :: _, _ :: _, _, _ => rfl
  | a :: as, b :: bs, c :: cs, h₁, h₂ => by
    simp only [listBefore, Bool.or_eq_true, Bool.and_eq_true, Bool.not_eq_true'] at *
    rcases h₁ with h₁ | ⟨n₁, h₁⟩ <;> rcases h₂ with h₂ | ⟨n₂, h₂⟩
    · exact .inl (trans h₁ h₂)
    · cases h : before b c with
      | true => exact .inl (trans h₁ h)
      | false => exact .inl (connected h n₂ ▸ h₁)
    · cases h : before a b with
      | true => exact .inl (trans h h₂)
      | false => exact .inl (connected h n₁ ▸ h₂)
    · cases h : before a b with
      | true =>
        cases h' : before b c with
        | true => exact .inl (trans h h')
        | false => exact .inl (connected h' n₂ ▸ h)
      | false => exact .inr ⟨connected h n₁ ▸ n₂, listBefore_trans h₁ h₂⟩

theorem listBefore_connected {α : Type u} [KeyOrder α] : ∀ {as bs : List α},
    listBefore as bs = false → listBefore bs as = false → as = bs
  | [], [], _, _ => rfl
  | [], _ :: _, h, _ => by simp [listBefore] at h
  | _ :: _, [], _, h => by simp [listBefore] at h
  | a :: as, b :: bs, h₁, h₂ => by
    simp only [listBefore, Bool.or_eq_false_iff, Bool.and_eq_false_iff, Bool.not_eq_false'] at *
    obtain ⟨h₁, h₁'⟩ := h₁
    obtain ⟨h₂, h₂'⟩ := h₂
    have hhd := connected h₁ h₂
    simp only [h₁, h₂, Bool.false_eq_true, false_or] at h₁' h₂'
    rw [hhd, listBefore_connected h₁' h₂']

instance {α : Type u} [KeyOrder α] : KeyOrder (List α) where
  before := listBefore
  irrefl := listBefore_irrefl
  trans := listBefore_trans
  connected := listBefore_connected

/-- Texts compare by their UTF-8 bytes. -/
instance : KeyOrder String :=
  through (fun s : String => s.toUTF8.data.toList) fun h =>
    String.toByteArray_inj.1 (ByteArray.ext (Array.toList_inj.1 h))

end KeyOrder

end EdgeDeletion
