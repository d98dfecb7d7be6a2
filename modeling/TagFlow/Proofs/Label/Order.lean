import TagFlow.Label.Basic
import TagFlow.Proofs.Ordered.Distinct

/-! # The order of labels

Joining is commutative, associative and idempotent. Over a finite list of tags a label
has a rank that grows whenever joining changes the label, so that a label changes only
so often.
-/

namespace TagFlow

namespace Label

/-! ## Laws of joining -/

theorem join_self (l : Label) : l.join l = l := by
  cases l with
  | unknown => rfl
  | known s i =>
      have hs : s.union s = s := OrdSet.ext fun a => by simp
      have hi : i.inter i = i := OrdSet.ext fun a => by simp
      simp only [join, hs, hi]

theorem join_comm (l m : Label) : l.join m = m.join l := by
  cases l with
  | unknown => simp
  | known s i =>
      cases m with
      | unknown => simp
      | known s' i' =>
          have hs : s.union s' = s'.union s := OrdSet.ext fun a => by simp [or_comm]
          have hi : i.inter i' = i'.inter i := OrdSet.ext fun a => by simp [and_comm]
          simp only [join, hs, hi]

theorem join_assoc (l m n : Label) : (l.join m).join n = l.join (m.join n) := by
  cases l with
  | unknown => simp
  | known s i =>
      cases m with
      | unknown => simp
      | known s' i' =>
          cases n with
          | unknown => simp
          | known s'' i'' =>
              have hs : (s.union s').union s'' = s.union (s'.union s'') :=
                OrdSet.ext fun a => by simp [or_assoc]
              have hi : (i.inter i').inter i'' = i.inter (i'.inter i'') :=
                OrdSet.ext fun a => by simp [and_assoc]
              simp only [join, hs, hi]

/-- Joining leaves the upper of two labels unchanged: it has all secrecy of the lower
one, and no integrity beyond it. -/
theorem join_eq_left_iff {s i s' i' : TagSet} :
    (known s i).join (known s' i') = known s i ↔
      (∀ t, t ∈ s' → t ∈ s) ∧ ∀ t, t ∈ i → t ∈ i' := by
  simp only [join, known.injEq]
  constructor
  · rintro ⟨hs, hi⟩
    refine ⟨fun t ht => ?_, fun t ht => ?_⟩
    · rw [← hs]
      exact OrdSet.mem_union.mpr (.inr ht)
    · rw [← hi] at ht
      exact (OrdSet.mem_inter.mp ht).2
  · rintro ⟨hs, hi⟩
    refine ⟨OrdSet.ext fun t => ?_, OrdSet.ext fun t => ?_⟩
    · rw [OrdSet.mem_union]
      exact ⟨fun h => h.elim id (hs t), .inl⟩
    · rw [OrdSet.mem_inter]
      exact ⟨And.left, fun h => ⟨h, hi t h⟩⟩

/-! ## Rank -/

/-- All tags of the label come from the list. -/
def Within (tags : List Tag) : Label → Prop
  | unknown => True
  | known s i => (∀ t, t ∈ s → t ∈ tags) ∧ ∀ t, t ∈ i → t ∈ tags

/-- Secrecy counts up and integrity counts down. -/
def rank (tags : List Tag) : Label → Nat
  | unknown => 0
  | known s i => 1 + s.size + (tags.length - i.size)

theorem Within.join {tags : List Tag} {l m : Label} (hl : l.Within tags) (hm : m.Within tags) :
    (l.join m).Within tags := by
  cases l with
  | unknown => exact hm
  | known s i =>
      cases m with
      | unknown => exact hl
      | known s' i' =>
          refine ⟨fun t ht => ?_, fun t ht => hl.2 t (OrdSet.mem_inter.mp ht).1⟩
          rcases OrdSet.mem_union.mp ht with h | h
          · exact hl.1 t h
          · exact hm.1 t h

theorem rank_le {tags : List Tag} {l : Label} (h : l.Within tags) :
    l.rank tags ≤ 2 * tags.length + 1 := by
  cases l with
  | unknown => exact Nat.zero_le _
  | known s i =>
      have hs := OrdSet.size_le_length h.1
      simp only [rank]
      omega

theorem rank_lt_of_join_ne {tags : List Tag} {l m : Label} (hl : l.Within tags)
    (hne : l.join m ≠ l) : l.rank tags < (l.join m).rank tags := by
  cases m with
  | unknown => exact absurd (join_unknown l) hne
  | known s' i' =>
      cases l with
      | unknown =>
          simp only [unknown_join, rank]
          omega
      | known s i =>
          have hs : s.size ≤ (s.union s').size :=
            OrdSet.size_le_of_subset fun t ht => OrdSet.mem_union.mpr (.inl ht)
          have hi : (i.inter i').size ≤ i.size :=
            OrdSet.size_le_of_subset fun t ht => (OrdSet.mem_inter.mp ht).1
          have htags := OrdSet.size_le_length hl.2
          by_cases hlt : s.size < (s.union s').size ∨ (i.inter i').size < i.size
          · simp only [join, rank]
            omega
          · have hs' : s = s.union s' := OrdSet.eq_of_subset_of_size_le
              (fun t ht => OrdSet.mem_union.mpr (.inl ht)) (by omega)
            have hi' : i.inter i' = i := OrdSet.eq_of_subset_of_size_le
              (fun t ht => (OrdSet.mem_inter.mp ht).1) (by omega)
            refine absurd ?_ hne
            simp only [join, hi', ← hs']

end Label

end TagFlow
