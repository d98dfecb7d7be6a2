import TagFlow.Policy.Privacy
import TagFlow.Proofs.Flow.Least

/-! # Sensitivities as an analysis

Sensitivities are joined by taking the larger one, and a sensitivity can grow only as
often as there are 64-bit words. Larger inputs give a larger sensitivity, since doubling stops
at the largest word.
-/

namespace TagFlow

namespace Privacy

theorem toNat_max (a b : UInt64) : (max a b).toNat = max a.toNat b.toNat := by
  have hmax : max a b = if a ≤ b then b else a := rfl
  rw [hmax]
  split
  · rename_i h
    have := UInt64.le_iff_toNat_le.mp h
    omega
  · rename_i h
    have := mt UInt64.le_iff_toNat_le.mpr h
    omega

@[simp] theorem none_join (s : Option UInt64) : join none s = s := by
  cases s <;> rfl

@[simp] theorem join_none (s : Option UInt64) : join s none = s := by
  cases s <;> rfl

theorem analysis_joinLaws : analysis.JoinLaws where
  bottom_join := none_join
  join_self s := by
    cases s with
    | none => rfl
    | some a =>
        refine congrArg some (UInt64.toNat_inj.mp ?_)
        rw [toNat_max, Nat.max_self]
  join_comm s t := by
    cases s with
    | none => exact (none_join t).trans (join_none t).symm
    | some a =>
        cases t with
        | none => rfl
        | some b =>
            refine congrArg some (UInt64.toNat_inj.mp ?_)
            rw [toNat_max, toNat_max, Nat.max_comm]
  join_assoc s t u := by
    cases s with
    | none => exact (congrArg (join · u) (none_join t)).trans (none_join _).symm
    | some a =>
        cases t with
        | none => exact congrArg (join (some a)) (none_join u).symm
        | some b =>
            cases u with
            | none => rfl
            | some c =>
                refine congrArg some (UInt64.toNat_inj.mp ?_)
                rw [toNat_max, toNat_max, toNat_max, toNat_max, Nat.max_assoc]

/-- One more than the word, so that every sensitivity is above none. -/
def rank : Option UInt64 → Nat
  | none => 0
  | some a => a.toNat + 1

theorem analysis_ranked : analysis.Ranked (fun _ => True) rank where
  good_bottom := trivial
  good_initial := trivial
  good_join _ _ _ _ := trivial
  good_transfer _ _ _ _ _ _ _ := trivial
  rank_le s _ := by
    cases s with
    | none => exact Nat.zero_le _
    | some a => exact a.toNat_lt_size
  rank_lt s t _ _ hne := by
    cases t with
    | none => exact absurd (join_none s) hne
    | some b =>
        cases s with
        | none => exact Nat.succ_pos _
        | some a =>
            have hab : a.toNat ≠ (max a b).toNat := by
              intro e
              refine hne (congrArg some (UInt64.toNat_inj.mp ?_))
              exact e.symm
            change a.toNat + 1 < (max a b).toNat + 1
            rw [toNat_max] at hab ⊢
            omega

theorem analysis_totalOn (ops : List Operation) : analysis.TotalOn ops :=
  fun _ _ _ _ => ⟨_, rfl, List.length_replicate⟩

theorem analysis_strict : analysis.Strict := by
  intro o inputs outs hne hbot h s hs
  cases h
  rw [List.eq_of_mem_replicate hs]
  have hlargest : ∀ l : List (Option UInt64), (∀ t, t ∈ l → t = none) →
      l.foldl join none = none := by
    intro l
    induction l with
    | nil => exact fun _ => rfl
    | cons t l ih =>
        intro h
        rw [List.foldl_cons, h t (by simp)]
        exact ih fun u hu => h u (by simp [hu])
  have hempty : inputs.isEmpty = false := by
    cases inputs with
    | nil => exact absurd rfl hne
    | cons _ _ => rfl
  simp only [sensitivity, hempty, hlargest inputs hbot, Bool.false_eq_true, if_false]
  split <;> rfl

/-! ## Larger inputs -/

/-- No sensitivity is below every other. -/
def Below : Option UInt64 → Option UInt64 → Prop
  | none, _ => True
  | some _, none => False
  | some a, some b => a ≤ b

theorem join_eq_iff_below {s t : Option UInt64} : join t s = t ↔ Below s t := by
  cases s with
  | none =>
      rw [join_none]
      exact ⟨fun _ => trivial, fun _ => rfl⟩
  | some a =>
      cases t with
      | none => exact ⟨fun h => absurd h (Option.some_ne_none a), False.elim⟩
      | some b =>
          change some (max b a) = some b ↔ a ≤ b
          rw [Option.some.injEq, ← UInt64.toNat_inj, toNat_max, UInt64.le_iff_toNat_le]
          omega

theorem analysis_below : analysis.Below = Below := by
  funext s t
  exact propext join_eq_iff_below

theorem Below.map_double {s t : Option UInt64} (h : Below s t) :
    Below (s.map (mulAmounts · 2)) (t.map (mulAmounts · 2)) := by
  cases s with
  | none => trivial
  | some a =>
      cases t with
      | none => exact h.elim
      | some b =>
          have doubled := Nat.mul_le_mul_right (UInt64.toNat 2) (UInt64.le_iff_toNat_le.mp h)
          refine UInt64.le_iff_toNat_le.mpr ?_
          rw [toNat_mulAmounts, toNat_mulAmounts]
          omega

theorem sensitivity_below (o : Operation) {inputs inputs' : List (Option UInt64)}
    (h : List.Forall₂ Below inputs inputs') :
    Below (sensitivity o inputs) (sensitivity o inputs') := by
  cases h with
  | nil => exact UInt64.le_refl _
  | @cons s s' rest rest' hs hrest =>
      have largest : Below ((s :: rest).foldl join none) ((s' :: rest').foldl join none) := by
        rw [← analysis_below] at hs hrest ⊢
        exact analysis_joinLaws.foldl_join_mono (.cons hs hrest)
          (analysis_joinLaws.below_refl none)
      simp only [sensitivity, List.isEmpty_cons, Bool.false_eq_true, if_false]
      split
      · exact largest.map_double
      · exact largest

theorem analysis_monotone : analysis.Monotone := by
  intro o inputs inputs' outs outs' h houts houts'
  cases houts
  cases houts'
  rw [analysis_below] at h ⊢
  exact Outcome.forall₂_replicate (sensitivity_below o h) o.outputCount

theorem analysis_bare : analysis.Bare := fun _ _ => rfl

end Privacy

end TagFlow
