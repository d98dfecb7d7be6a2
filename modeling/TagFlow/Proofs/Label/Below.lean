import TagFlow.Proofs.Flow.Least
import TagFlow.Proofs.Label.Transfer

/-! # Rules that only raise labels

The lower of two labels has less secrecy and more integrity, and an unknown label is below
all. A step without premises never asks for integrity, so it takes lower labels to lower
labels: the default, copies, changes of one tag and both ways of merging. Hence labels under
premise-free rules are computed by a monotone analysis. What the rules do depends on the id,
the inputs and the outputs of an operation, and not on what implements it.
-/

namespace TagFlow

namespace Label

/-- The second label has all secrecy of the first, and no integrity beyond it. -/
def Below : Label → Label → Prop
  | unknown, _ => True
  | known _ _, unknown => False
  | known s i, known s' i' => (∀ t, t ∈ s → t ∈ s') ∧ ∀ t, t ∈ i' → t ∈ i

theorem join_eq_iff_below {l m : Label} : m.join l = m ↔ l.Below m := by
  cases l with
  | unknown =>
      rw [join_unknown]
      exact ⟨fun _ => trivial, fun _ => rfl⟩
  | known s i =>
      cases m with
      | unknown => exact ⟨fun h => Label.noConfusion h, False.elim⟩
      | known s' i' => exact join_eq_left_iff

theorem Below.refl (l : Label) : l.Below l := join_eq_iff_below.mp (join_self l)

theorem Below.of_known {s i : TagSet} {m : Label} (h : (known s i).Below m) :
    ∃ s' i', m = known s' i' ∧ (∀ t, t ∈ s → t ∈ s') ∧ ∀ t, t ∈ i' → t ∈ i := by
  cases m with
  | unknown => exact h.elim
  | known s' i' => exact ⟨s', i', rfl, h⟩

/-! ## What keeps the order -/

theorem Below.carry {l l' m m' : Label} (h : l.Below l') (k : m.Below m') :
    (carry l m).Below (carry l' m') := by
  cases l with
  | unknown => trivial
  | known s i =>
      cases m with
      | unknown => trivial
      | known t j =>
          obtain ⟨s', i', rfl, hs, -⟩ := h.of_known
          obtain ⟨t', j', rfl, ht, -⟩ := k.of_known
          refine ⟨?_, fun _ htag => htag⟩
          intro tag htag
          rcases OrdSet.mem_union.mp htag with htag | htag
          · exact OrdSet.mem_union.mpr (.inl (hs tag htag))
          · exact OrdSet.mem_union.mpr (.inr (ht tag htag))

theorem Below.default {inputs inputs' : List Label}
    (h : List.Forall₂ Below inputs inputs') : (default inputs).Below (default inputs') := by
  suffices go : ∀ acc acc' : Label, acc.Below acc' →
      (inputs.foldl Label.carry acc).Below (inputs'.foldl Label.carry acc') from
    go untagged untagged (.refl untagged)
  induction h with
  | nil => exact fun _ _ hacc => hacc
  | cons hl _ ih => exact fun acc acc' hacc => ih _ _ (hacc.carry hl)

theorem mem_insert_mono {s s' : TagSet} (h : ∀ t, t ∈ s → t ∈ s') (tag : Tag) :
    ∀ t, t ∈ s.insert tag → t ∈ s'.insert tag := by
  intro t ht
  rw [OrdSet.mem_insert] at ht ⊢
  exact ht.imp_right (h t)

theorem mem_erase_mono {s s' : TagSet} (h : ∀ t, t ∈ s → t ∈ s') (tag : Tag) :
    ∀ t, t ∈ s.erase tag → t ∈ s'.erase tag := by
  intro t ht
  rw [OrdSet.mem_erase] at ht ⊢
  exact ht.imp_left (h t)

theorem Below.change {l m : Label} (h : l.Below m) (c : TagChange) (tag : Tag) :
    (l.change c tag).Below (m.change c tag) := by
  cases l with
  | unknown =>
      rw [change_unknown]
      trivial
  | known s i =>
      obtain ⟨s', i', rfl, hs, hi⟩ := h.of_known
      cases c with
      | addSecrecy => exact ⟨mem_insert_mono hs tag, hi⟩
      | removeSecrecy => exact ⟨mem_erase_mono hs tag, hi⟩
      | addIntegrity => exact ⟨hs, mem_insert_mono hi tag⟩
      | removeIntegrity => exact ⟨hs, mem_erase_mono hi tag⟩

/-- The tags merged so far: on both sides none, or fewer on the higher side. -/
abbrev Fewer : Option TagSet → Option TagSet → Prop :=
  Option.Rel fun tags tags' => ∀ t, t ∈ tags' → t ∈ tags

theorem mergedIntegrity_below (kind : MergeKind) {inputs inputs' : List Label}
    (h : List.Forall₂ Below inputs inputs') {positions : List Nat}
    {merged merged' result result' : Option TagSet} (hmerged : Fewer merged merged')
    (hr : mergedIntegrity kind inputs positions merged = .ok result)
    (hr' : mergedIntegrity kind inputs' positions merged' = .ok result') :
    Fewer result result' := by
  induction positions generalizing merged merged' with
  | nil =>
      cases hr
      cases hr'
      exact hmerged
  | cons index rest ih =>
      simp only [mergedIntegrity] at hr hr'
      cases hget : inputs[index]? with
      | none => simp [hget] at hr
      | some l =>
          obtain ⟨l', hget', hle⟩ := Outcome.getElem?_of_forall₂ h hget
          simp only [hget] at hr
          simp only [hget'] at hr'
          cases l with
          | unknown => cases hr
          | known s i =>
              obtain ⟨s', i', rfl, -, hi⟩ := hle.of_known
              refine ih ?_ hr hr'
              cases hmerged with
              | none => exact .some hi
              | @some acc acc' hacc =>
                  refine .some ?_
                  intro t ht
                  cases kind with
                  | union =>
                      rw [OrdSet.mem_union] at ht ⊢
                      exact ht.imp (hacc t) (hi t)
                  | intersect =>
                      rw [OrdSet.mem_inter] at ht ⊢
                      exact ht.imp (hacc t) (hi t)

theorem Below.merge {inputs inputs' : List Label} (h : List.Forall₂ Below inputs inputs')
    {current current' : Label} (hcurrent : current.Below current') {kind : MergeKind}
    {positions : List Nat} {l l' : Label} (hl : merge kind positions inputs current = .ok l)
    (hl' : merge kind positions inputs' current' = .ok l') : l.Below l' := by
  unfold Label.merge at hl hl'
  split at hl
  · cases hl
    trivial
  · rename_i guard
    have guard' : ¬ (current'.isUnknown || inputs'.any isUnknown) = true := by
      rw [Bool.or_eq_true, List.any_eq_true] at guard ⊢
      rintro (e | ⟨u, hu, e⟩)
      · cases current with
        | unknown => exact guard (.inl rfl)
        | known s i =>
            obtain ⟨s', i', rfl, -, -⟩ := hcurrent.of_known
            cases e
      · obtain ⟨v, hv, hle⟩ := Outcome.exists_left_of_forall₂ h hu
        cases v with
        | unknown => exact guard (.inr ⟨_, hv, rfl⟩)
        | known s i =>
            obtain ⟨s', i', rfl, -, -⟩ := hle.of_known
            cases e
    rw [if_neg guard'] at hl'
    obtain ⟨merged, hm, hl⟩ := Outcome.bind_eq_ok.mp hl
    obtain ⟨merged', hm', hl'⟩ := Outcome.bind_eq_ok.mp hl'
    cases hl
    cases hl'
    cases current with
    | unknown => trivial
    | known s i =>
        obtain ⟨s', i', rfl, hs, -⟩ := hcurrent.of_known
        refine ⟨hs, ?_⟩
        cases mergedIntegrity_below kind h .none hm hm' with
        | none => exact fun _ ht => ht
        | some hfewer => exact hfewer

end Label

/-! ## Steps without premises -/

theorem InferenceRule.apply_below {rule : InferenceRule} (free : rule.premises = [])
    {inputs inputs' : List Label} (h : List.Forall₂ Label.Below inputs inputs')
    {current current' l l' : Label} (hcurrent : current.Below current')
    (hl : apply inputs current rule = .ok l) (hl' : apply inputs' current' rule = .ok l') :
    l.Below l' := by
  rw [apply, free] at hl hl'
  change conclude inputs current rule.conclusion = .ok l at hl
  change conclude inputs' current' rule.conclusion = .ok l' at hl'
  cases hc : rule.conclusion with
  | copy index =>
      rw [hc] at hl hl'
      cases hget : inputs[index]? with
      | none => simp [conclude, hget] at hl
      | some given =>
          obtain ⟨given', hget', hle⟩ := Outcome.getElem?_of_forall₂ h hget
          simp only [conclude, hget, hget', Except.ok.injEq] at hl hl'
          exact hl ▸ hl' ▸ hle
  | modify c tag =>
      rw [hc] at hl hl'
      cases hl
      cases hl'
      exact hcurrent.change c tag
  | merge kind positions =>
      rw [hc] at hl hl'
      exact Label.Below.merge h hcurrent hl hl'

namespace RuleSet

/-- No step of any action has a premise. -/
def PremiseFree (r : RuleSet) : Prop :=
  ∀ d, d ∈ r.rules.entries → ∀ e, e ∈ d.2.entries → ∀ rule, rule ∈ e.2 → rule.premises = []

instance (r : RuleSet) : Decidable r.PremiseFree :=
  inferInstanceAs (Decidable (∀ _, _ → _))

theorem transfer_below {r : RuleSet} (free : r.PremiseFree) {o : Operation}
    {inputs inputs' outs outs' : List Label} (h : List.Forall₂ Label.Below inputs inputs')
    (houts : r.transfer o inputs = .ok outs) (houts' : r.transfer o inputs' = .ok outs') :
    List.Forall₂ Label.Below outs outs' := by
  have hdefault := Label.Below.default h
  have hstart : List.Forall₂ Label.Below (List.replicate o.outputCount (Label.default inputs))
      (List.replicate o.outputCount (Label.default inputs')) :=
    Outcome.forall₂_replicate hdefault o.outputCount
  unfold transfer at houts houts'
  cases haction : r.actions.find? o.id with
  | none =>
      simp only [haction] at houts houts'
      cases houts
      cases houts'
      exact hstart
  | some action =>
      simp only [haction] at houts houts'
      cases hrules : r.rules.find? action with
      | none => simp [hrules] at houts
      | some outputs =>
          simp only [hrules] at houts houts'
          refine Outcome.foldlM_related (List.Forall₂ Label.Below) hstart ?_ houts houts'
          intro e results next results' next' he hresults hnext hnext'
          unfold refine at hnext hnext'
          split at hnext
          · rename_i hindex
            rw [if_pos hindex] at hnext'
            obtain ⟨l, hl, hnext⟩ := Outcome.bind_eq_ok.mp hnext
            obtain ⟨l', hl', hnext'⟩ := Outcome.bind_eq_ok.mp hnext'
            cases hnext
            cases hnext'
            have hle : l.Below l' :=
              Outcome.foldlM_related Label.Below hdefault
                (fun rule _ _ _ _ hrule hcurrent => InferenceRule.apply_below
                  (free _ (OrdMap.find?_eq_some_iff.mp hrules) e he rule hrule) h hcurrent)
                hl hl'
            exact Outcome.forall₂_set hresults hle e.1
          · cases hnext

theorem analysis_below (r : RuleSet) : r.analysis.Below = Label.Below := by
  funext l m
  exact propext Label.join_eq_iff_below

theorem analysis_monotone {r : RuleSet} (free : r.PremiseFree) : r.analysis.Monotone := by
  intro o inputs inputs' outs outs' h
  rw [analysis_below] at h ⊢
  exact transfer_below free h

theorem analysis_bare (r : RuleSet) : r.analysis.Bare := fun _ _ => rfl

end RuleSet

end TagFlow
