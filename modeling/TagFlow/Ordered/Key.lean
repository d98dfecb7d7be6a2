/-! # Ordered keys

A key type carries a strict total order with a Boolean test. Sets and maps over
keys are kept in that order, so each has one representation and is listed the
same way whatever order it was filled in.
-/

namespace TagFlow

class Key (κ : Type) where
  lt : κ → κ → Bool
  irrefl : ∀ a, lt a a = false
  trans : ∀ {a b c}, lt a b = true → lt b c = true → lt a c = true
  connected : ∀ {a b}, lt a b = false → lt b a = false → a = b

namespace Key

theorem asymm {κ : Type} [Key κ] {a b : κ} (h : lt a b = true) : lt b a = false := by
  cases hb : lt b a with
  | false => rfl
  | true =>
      have := trans h hb
      rw [irrefl] at this
      exact this.symm

theorem ne_of_lt {κ : Type} [Key κ] {a b : κ} (h : lt a b = true) : a ≠ b := by
  intro e
  subst e
  rw [irrefl] at h
  exact Bool.noConfusion h

/-- Two keys are equal exactly when neither is before the other. -/
def same {κ : Type} [Key κ] (a b : κ) : Bool :=
  !lt a b && !lt b a

@[simp] theorem same_iff {κ : Type} [Key κ] {a b : κ} : same a b = true ↔ a = b := by
  constructor
  · intro h
    simp only [same, Bool.and_eq_true, Bool.not_eq_true'] at h
    exact connected h.1 h.2
  · intro h
    subst h
    simp [same, irrefl]

@[simp] theorem same_self {κ : Type} [Key κ] (a : κ) : same a a = true :=
  same_iff.mpr rfl

theorem same_eq_false {κ : Type} [Key κ] {a b : κ} (h : a ≠ b) : same a b = false := by
  cases hs : same a b with
  | false => rfl
  | true => exact absurd (same_iff.mp hs) h

/-- The order that a one-to-one function pulls back from its target. -/
@[reducible] def pullback {κ ι : Type} [Key ι] (f : κ → ι) (inj : ∀ {a b}, f a = f b → a = b) : Key κ where
  lt a b := lt (f a) (f b)
  irrefl a := irrefl (f a)
  trans h k := trans h k
  connected h k := inj (connected h k)

instance : Key Nat where
  lt a b := decide (a < b)
  irrefl a := by simp
  trans h k := by simp at *; omega
  connected h k := by simp at *; omega

instance : Key Int where
  lt a b := decide (a < b)
  irrefl a := by simp
  trans h k := by simp at *; omega
  connected h k := by simp at *; omega

/-- Names are ordered by code points. -/
instance : Key String where
  lt a b := decide (a < b)
  irrefl a := decide_eq_false (String.lt_irrefl a)
  trans h k := by
    simp only [decide_eq_true_eq] at *
    exact String.lt_trans h k
  connected h k := by
    simp only [decide_eq_false_iff_not] at *
    exact String.le_antisymm k h

/-- Pairs are ordered by their first parts, then by their second parts. -/
instance {α β : Type} [Key α] [Key β] : Key (α × β) where
  lt p q := lt p.1 q.1 || (same p.1 q.1 && lt p.2 q.2)
  irrefl p := by simp [irrefl]
  trans {p q r} h k := by
    simp only [Bool.or_eq_true, Bool.and_eq_true, same_iff] at *
    rcases h with h | ⟨h, h'⟩ <;> rcases k with k | ⟨k, k'⟩
    · exact .inl (trans h k)
    · exact .inl (k ▸ h)
    · exact .inl (h ▸ k)
    · exact .inr ⟨h.trans k, trans h' k'⟩
  connected {p q} h k := by
    simp only [Bool.or_eq_false_iff] at *
    have first : p.1 = q.1 := connected h.1 k.1
    have h' := h.2
    have k' := k.2
    rw [first, same_self, Bool.true_and] at h' k'
    exact Prod.ext first (connected h' k')

end Key

end TagFlow
