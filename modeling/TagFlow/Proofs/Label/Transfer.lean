import TagFlow.Label.Transfer
import TagFlow.Proofs.Flow.PostFixpoint
import TagFlow.Proofs.Label.Order

/-! # Labels computed by rules

Every label of an output is reached from the default label by steps of the rule set. A
step keeps to the tags of the inputs and those that the rules change, leaves everything
unknown when nothing is known, and never fails when its positions are in range.
-/

namespace TagFlow

namespace Label

/-! ## The default label -/

/-- The default label of one input after another. -/
def carry : Label → Label → Label
  | known s _, known s' _ => known (s.union s') .empty
  | _, _ => unknown

theorem default_eq_foldl (inputs : List Label) :
    default inputs = inputs.foldl carry untagged := rfl

theorem foldl_carry_unknown (inputs : List Label) : inputs.foldl carry unknown = unknown := by
  induction inputs with
  | nil => rfl
  | cons l inputs ih => exact ih

theorem default_of_unknown {inputs : List Label} (h : unknown ∈ inputs) :
    default inputs = unknown := by
  rw [default_eq_foldl]
  generalize untagged = acc
  induction inputs generalizing acc with
  | nil => cases h
  | cons l inputs ih =>
      rw [List.foldl_cons]
      rcases List.mem_cons.mp h with e | h
      · rw [← e]
        cases acc <;> exact foldl_carry_unknown inputs
      · exact ih h (carry acc l)

/-- Known inputs pass their secrecy on, and no integrity. -/
theorem default_of_known {inputs : List Label} (h : ¬ unknown ∈ inputs) :
    ∃ secrecy, default inputs = known secrecy .empty ∧
      ∀ t, t ∈ secrecy ↔ ∃ s i, known s i ∈ inputs ∧ t ∈ s := by
  suffices go : ∀ acc : TagSet, ∃ secrecy,
      inputs.foldl carry (known acc .empty) = known secrecy .empty ∧
        ∀ t, t ∈ secrecy ↔ t ∈ acc ∨ ∃ s i, known s i ∈ inputs ∧ t ∈ s by
    obtain ⟨secrecy, hs, hmem⟩ := go .empty
    refine ⟨secrecy, by rw [default_eq_foldl]; exact hs, ?_⟩
    intro t
    rw [hmem]
    simp
  induction inputs with
  | nil => exact fun acc => ⟨acc, rfl, by simp⟩
  | cons l inputs ih =>
      intro acc
      cases l with
      | unknown => simp at h
      | known s i =>
          obtain ⟨secrecy, hs, hmem⟩ := ih (by simp at h; exact h) (acc.union s)
          refine ⟨secrecy, hs, ?_⟩
          intro t
          rw [hmem, OrdSet.mem_union]
          constructor
          · intro ht
            rcases ht with (ht | ht) | ⟨s', i', hin, ht⟩
            · exact .inl ht
            · exact .inr ⟨s, i, by simp, ht⟩
            · exact .inr ⟨s', i', by simp [hin], ht⟩
          · intro ht
            rcases ht with ht | ⟨s', i', hin, ht⟩
            · exact .inl (.inl ht)
            · rcases List.mem_cons.mp hin with e | hin
              · cases e
                exact .inl (.inr ht)
              · exact .inr ⟨s', i', hin, ht⟩

theorem default_within {tags : List Tag} {inputs : List Label}
    (h : ∀ l, l ∈ inputs → l.Within tags) : (default inputs).Within tags := by
  by_cases hu : unknown ∈ inputs
  · rw [default_of_unknown hu]
    trivial
  · obtain ⟨secrecy, hs, hmem⟩ := default_of_known hu
    rw [hs]
    refine ⟨?_, fun t ht => absurd ht (OrdSet.not_mem_empty t)⟩
    intro t ht
    obtain ⟨s, i, hin, hts⟩ := (hmem t).mp ht
    exact (h _ hin).1 t hts

/-! ## Merging integrity -/

theorem mergedIntegrity_total (kind : MergeKind) {inputs : List Label}
    (hknown : ¬ unknown ∈ inputs) {positions : List Nat}
    (hrange : ∀ i, i ∈ positions → i < inputs.length) (merged : Option TagSet) :
    ∃ result, mergedIntegrity kind inputs positions merged = .ok result := by
  induction positions generalizing merged with
  | nil => exact ⟨merged, rfl⟩
  | cons index rest ih =>
      have hlt := hrange index (by simp)
      have hget : inputs[index]? = some inputs[index] := List.getElem?_eq_getElem hlt
      cases hl : inputs[index] with
      | unknown => exact absurd (hl ▸ List.getElem_mem hlt) hknown
      | known s i =>
          rw [hl] at hget
          simp only [mergedIntegrity, hget, integrity, bind, Except.bind]
          exact ih (fun j hj => hrange j (by simp [hj])) _

theorem unknown_guard_iff {inputs : List Label} {current : Label} :
    (current.isUnknown || inputs.any isUnknown) = true ↔ current = unknown ∨ unknown ∈ inputs := by
  have one : ∀ l : Label, l.isUnknown = true ↔ l = unknown := by
    intro l
    cases l <;> simp [isUnknown]
  simp [one]

/-- Past the guard of a merge every input is known. -/
theorem known_of_guard {inputs : List Label} {current : Label}
    (h : ¬ (current.isUnknown || inputs.any isUnknown) = true) : ¬ unknown ∈ inputs :=
  fun hu => h (unknown_guard_iff.mpr (.inr hu))

theorem merge_total (kind : MergeKind) {inputs : List Label} {positions : List Nat}
    (hrange : ∀ i, i ∈ positions → i < inputs.length) (current : Label) :
    ∃ l, merge kind positions inputs current = .ok l := by
  unfold merge
  split
  · exact ⟨unknown, rfl⟩
  · rename_i h
    obtain ⟨merged, hm⟩ := mergedIntegrity_total kind (known_of_guard h) hrange none
    exact ⟨current.withIntegrity (merged.getD .empty), by rw [hm]; rfl⟩

theorem mergedIntegrity_within {tags : List Tag} (kind : MergeKind) {inputs : List Label}
    (h : ∀ l, l ∈ inputs → l.Within tags) {positions : List Nat} {merged result : Option TagSet}
    (hmerged : ∀ acc, merged = some acc → ∀ t, t ∈ acc → t ∈ tags)
    (hresult : mergedIntegrity kind inputs positions merged = .ok result) :
    ∀ acc, result = some acc → ∀ t, t ∈ acc → t ∈ tags := by
  induction positions generalizing merged with
  | nil =>
      cases hresult
      exact hmerged
  | cons index rest ih =>
      simp only [mergedIntegrity] at hresult
      cases hget : inputs[index]? with
      | none => simp [hget] at hresult
      | some l =>
          cases l with
          | unknown => simp [hget, integrity, bind, Except.bind] at hresult
          | known s i =>
              have hi := (h _ (List.mem_of_getElem? hget)).2
              simp only [hget, integrity, bind, Except.bind] at hresult
              refine ih ?_ hresult
              intro acc hacc t ht
              cases merged with
              | none =>
                  cases hacc
                  exact hi t ht
              | some old =>
                  cases kind with
                  | union =>
                      cases hacc
                      rcases OrdSet.mem_union.mp ht with ht | ht
                      · exact hmerged old rfl t ht
                      · exact hi t ht
                  | intersect =>
                      cases hacc
                      exact hi t (OrdSet.mem_inter.mp ht).2

theorem merge_within {tags : List Tag} {kind : MergeKind} {inputs : List Label}
    {positions : List Nat} {current l : Label} (h : ∀ l, l ∈ inputs → l.Within tags)
    (hcurrent : current.Within tags) (hl : merge kind positions inputs current = .ok l) :
    l.Within tags := by
  unfold merge at hl
  split at hl
  · cases hl
    trivial
  · obtain ⟨merged, hm, hl⟩ := Outcome.bind_eq_ok.mp hl
    cases hl
    cases current with
    | unknown => trivial
    | known s i =>
        refine ⟨hcurrent.1, ?_⟩
        intro t ht
        cases merged with
        | none => exact absurd ht (OrdSet.not_mem_empty t)
        | some acc =>
            exact mergedIntegrity_within kind h (by simp) hm acc rfl t ht

theorem change_within {tags : List Tag} {l : Label} (h : l.Within tags) (c : TagChange)
    {tag : Tag} (ht : tag ∈ tags) : (l.change c tag).Within tags := by
  cases l with
  | unknown => cases c <;> trivial
  | known s i =>
      cases c with
      | addSecrecy =>
          refine ⟨fun t hm => ?_, h.2⟩
          rcases OrdSet.mem_insert.mp hm with rfl | hm
          · exact ht
          · exact h.1 t hm
      | removeSecrecy => exact ⟨fun t hm => h.1 t (OrdSet.mem_erase.mp hm).1, h.2⟩
      | addIntegrity =>
          refine ⟨h.1, fun t hm => ?_⟩
          rcases OrdSet.mem_insert.mp hm with rfl | hm
          · exact ht
          · exact h.2 t hm
      | removeIntegrity => exact ⟨h.1, fun t hm => h.2 t (OrdSet.mem_erase.mp hm).1⟩

theorem merge_known {kind : MergeKind} {inputs : List Label} {positions : List Nat}
    {current l : Label} (hinputs : ¬ unknown ∈ inputs) (hcurrent : current ≠ unknown)
    (hl : merge kind positions inputs current = .ok l) : l ≠ unknown := by
  unfold merge at hl
  rw [if_neg (by rw [unknown_guard_iff]; simp [hinputs, hcurrent])] at hl
  obtain ⟨merged, -, hl⟩ := Outcome.bind_eq_ok.mp hl
  cases hl
  cases current with
  | unknown => exact absurd rfl hcurrent
  | known s i => exact Label.noConfusion

theorem change_known {l : Label} (h : l ≠ unknown) (c : TagChange) (tag : Tag) :
    l.change c tag ≠ unknown := by
  cases l with
  | unknown => exact absurd rfl h
  | known s i => cases c <;> exact Label.noConfusion

theorem change_unknown (c : TagChange) (tag : Tag) : unknown.change c tag = unknown := by
  cases c <;> rfl

end Label

/-- The inputs that a conclusion reads. -/
def Conclusion.positions : Conclusion → List Nat
  | copy index => [index]
  | modify _ _ => []
  | merge _ positions => positions

namespace InferenceRule

/-! ## One step -/

/-- All positions that the step looks at are below the number of inputs. -/
def InRange (rule : InferenceRule) (inputs : Nat) : Prop :=
  (∀ p, p ∈ rule.premises → p.input < inputs) ∧
    ∀ index, index ∈ rule.conclusion.positions → index < inputs

instance (rule : InferenceRule) (inputs : Nat) : Decidable (rule.InRange inputs) :=
  inferInstanceAs (Decidable (_ ∧ _))

theorem premisesHold_total {inputs : List Label} {premises : List Premise}
    (h : ∀ p, p ∈ premises → p.input < inputs.length) :
    ∃ b, premisesHold inputs premises = .ok b := by
  induction premises with
  | nil => exact ⟨true, rfl⟩
  | cons p rest ih =>
      have hlt := h p (by simp)
      have hget : inputs[p.input]? = some inputs[p.input] := List.getElem?_eq_getElem hlt
      cases hl : inputs[p.input] with
      | unknown => exact ⟨false, by simp only [premisesHold, hget, hl]⟩
      | known s i =>
          simp only [premisesHold, hget, hl]
          split
          · exact ih fun q hq => h q (by simp [hq])
          · exact ⟨false, rfl⟩

theorem premisesHold_eq_true {inputs : List Label} {premises : List Premise} :
    premisesHold inputs premises = .ok true ↔
      ∀ p, p ∈ premises → ∃ s i, inputs[p.input]? = some (.known s i) ∧ p.tag ∈ i := by
  induction premises with
  | nil => simp [premisesHold]
  | cons p rest ih =>
      rw [premisesHold, List.forall_mem_cons, ← ih]
      cases hp : inputs[p.input]? with
      | none => simp
      | some l =>
          cases l with
          | unknown => simp
          | known s i => by_cases hmem : p.tag ∈ i <;> simp [hmem]

theorem apply_total {inputs : List Label} {rule : InferenceRule}
    (h : rule.InRange inputs.length) (current : Label) :
    ∃ l, apply inputs current rule = .ok l := by
  obtain ⟨hpremises, hconclusion⟩ := h
  obtain ⟨b, hb⟩ := premisesHold_total hpremises
  have hconclude : ∃ l, conclude inputs current rule.conclusion = .ok l := by
    cases hc : rule.conclusion with
    | copy index =>
        have hlt : index < inputs.length := hconclusion index (by simp [hc, Conclusion.positions])
        exact ⟨inputs[index], by simp only [conclude, List.getElem?_eq_getElem hlt]⟩
    | modify c tag => exact ⟨current.change c tag, rfl⟩
    | merge kind positions =>
        rw [hc] at hconclusion
        exact Label.merge_total kind hconclusion current
  cases b with
  | true =>
      obtain ⟨l, hl⟩ := hconclude
      exact ⟨l, by simp only [apply, hb, bind, Except.bind, if_true]; exact hl⟩
  | false => exact ⟨current, by rw [apply, hb]; rfl⟩

/-- A step either does not apply or draws its conclusion. -/
theorem apply_cases {inputs : List Label} {current l : Label} {rule : InferenceRule}
    (h : apply inputs current rule = .ok l) :
    l = current ∨ conclude inputs current rule.conclusion = .ok l := by
  obtain ⟨b, -, h⟩ := Outcome.bind_eq_ok.mp h
  cases b with
  | true => exact .inr h
  | false =>
      cases h
      exact .inl rfl

/-- What holds of the inputs and of the label reached so far holds after a step, if
changing and merging keep it. -/
theorem apply_keeps {P : Label → Prop} {inputs : List Label} {current l : Label}
    {rule : InferenceRule} (hinputs : ∀ l, l ∈ inputs → P l) (hcurrent : P current)
    (hchange : ∀ c tag, rule.conclusion = .modify c tag → P (current.change c tag))
    (hmerge : ∀ kind positions l, Label.merge kind positions inputs current = .ok l → P l)
    (h : apply inputs current rule = .ok l) : P l := by
  rcases apply_cases h with rfl | h
  · exact hcurrent
  · cases hc : rule.conclusion with
    | copy index =>
        rw [hc, conclude] at h
        split at h
        · rename_i hget
          cases h
          exact hinputs _ (List.mem_of_getElem? hget)
        · cases h
    | modify c tag =>
        rw [hc] at h
        cases h
        exact hchange c tag hc
    | merge kind positions =>
        rw [hc] at h
        exact hmerge kind positions l h

end InferenceRule

namespace RuleSet

/-! ## All outputs -/

/-- If the operation is marked, its action has rules, and all their positions are in
range for the operation. -/
def Fits (r : RuleSet) (o : Operation) : Prop :=
  ∀ action, r.actions.find? o.id = some action →
    ∃ outputs, r.rules.find? action = some outputs ∧
      ∀ e, e ∈ outputs.entries →
        e.1 < o.outputCount ∧ ∀ rule, rule ∈ e.2 → rule.InRange o.inputs.length

instance (r : RuleSet) (o : Operation) : Decidable (r.Fits o) :=
  match haction : r.actions.find? o.id with
  | none => .isTrue fun _ h => nomatch haction.symm.trans h
  | some action =>
      match hrules : r.rules.find? action with
      | none => .isFalse fun h => by
          obtain ⟨outputs, hout, -⟩ := h action haction
          rw [hrules] at hout
          cases hout
      | some outputs =>
          decidable_of_iff (∀ e, e ∈ outputs.entries →
              e.1 < o.outputCount ∧ ∀ rule, rule ∈ e.2 → rule.InRange o.inputs.length) <| by
            constructor
            · intro h action' haction'
              rw [haction] at haction'
              cases haction'
              exact ⟨outputs, hrules, h⟩
            · intro h
              obtain ⟨outputs', hout, h⟩ := h action haction
              rw [hrules] at hout
              cases hout
              exact h

theorem transfer_unmarked {r : RuleSet} {o : Operation} (h : r.actions.find? o.id = none)
    (inputs : List Label) :
    r.transfer o inputs = .ok (List.replicate o.outputCount (Label.default inputs)) := by
  simp only [transfer, h]

/-- Steps of the rules lead from the default label to this one. -/
def Reaches (r : RuleSet) (inputs : List Label) (l : Label) : Prop :=
  ∃ steps : List InferenceRule,
    (∀ rule, rule ∈ steps → ∃ d e, d ∈ r.rules.entries ∧ e ∈ d.2.entries ∧ rule ∈ e.2) ∧
      steps.foldlM (InferenceRule.apply inputs) (Label.default inputs) = .ok l

theorem transfer_outputs {r : RuleSet} {o : Operation} {inputs outs : List Label}
    (h : r.transfer o inputs = .ok outs) :
    outs.length = o.outputCount ∧ ∀ l, l ∈ outs → r.Reaches inputs l := by
  have hstart : ∀ l, l ∈ List.replicate o.outputCount (Label.default inputs) →
      r.Reaches inputs l := by
    intro l hl
    rw [List.eq_of_mem_replicate hl]
    exact ⟨[], by simp, rfl⟩
  unfold transfer at h
  cases haction : r.actions.find? o.id with
  | none =>
      simp only [haction] at h
      cases h
      exact ⟨List.length_replicate, hstart⟩
  | some action =>
      simp only [haction] at h
      cases hrules : r.rules.find? action with
      | none => simp [hrules] at h
      | some outputs =>
          simp only [hrules] at h
          refine Outcome.foldlM_keeps (l := outputs.entries)
            (f := fun results e => refine action o inputs results e.1 e.2)
            (fun _ results => results.length = o.outputCount ∧
              ∀ l, l ∈ results → r.Reaches inputs l)
            ⟨List.length_replicate, hstart⟩ ?_ h
          intro _ e results results' he hinv hstep
          unfold refine at hstep
          split at hstep
          · obtain ⟨l, hl, hstep⟩ := Outcome.bind_eq_ok.mp hstep
            cases hstep
            refine ⟨by rw [List.length_set]; exact hinv.1, ?_⟩
            intro l' hl'
            rcases List.mem_or_eq_of_mem_set hl' with hl' | rfl
            · exact hinv.2 l' hl'
            · exact ⟨e.2, fun rule hr =>
                ⟨(action, outputs), e, OrdMap.find?_eq_some_iff.mp hrules, he, hr⟩, hl⟩
          · cases hstep

theorem transfer_total {r : RuleSet} {o : Operation} (fits : r.Fits o) {inputs : List Label}
    (hlen : inputs.length = o.inputs.length) :
    ∃ outs, r.transfer o inputs = .ok outs ∧ outs.length = o.outputCount := by
  suffices h : ∃ outs, r.transfer o inputs = .ok outs by
    obtain ⟨outs, h⟩ := h
    exact ⟨outs, h, (transfer_outputs h).1⟩
  unfold transfer
  cases haction : r.actions.find? o.id with
  | none => exact ⟨_, rfl⟩
  | some action =>
      obtain ⟨outputs, hrules, hrange⟩ := fits action haction
      simp only [hrules]
      obtain ⟨outs, houts, -⟩ := Outcome.foldlM_total
        (f := fun results e => refine action o inputs results e.1 e.2)
        (fun _ _ => True) (l := outputs.entries)
        (s := List.replicate o.outputCount (Label.default inputs)) trivial (by
          intro _ e results hnext _
          obtain ⟨hindex, hsteps⟩ := hrange e (Outcome.mem_of_concat_isPrefix hnext)
          obtain ⟨l, hl, -⟩ := Outcome.foldlM_total (f := InferenceRule.apply inputs)
            (fun _ _ => True) (l := e.2) (s := Label.default inputs) trivial (by
              intro _ rule current hnext _
              have hr := hsteps rule (Outcome.mem_of_concat_isPrefix hnext)
              obtain ⟨l, hl⟩ := InferenceRule.apply_total (hlen ▸ hr) current
              exact ⟨l, hl, trivial⟩)
          exact ⟨results.set e.1 l, by rw [refine, if_pos hindex, hl]; rfl, trivial⟩)
      exact ⟨outs, houts⟩

/-- What holds of the inputs and of the default label holds of every output, if changing by
the rules and merging keep it. -/
theorem transfer_keeps {P : Label → Prop} {r : RuleSet} {o : Operation} {inputs outs : List Label}
    (hinputs : ∀ l, l ∈ inputs → P l) (hdefault : P (Label.default inputs))
    (hchange : ∀ c tag current, tag ∈ r.changedTags → P current → P (current.change c tag))
    (hmerge : ∀ kind positions current l, P current →
      Label.merge kind positions inputs current = .ok l → P l)
    (h : r.transfer o inputs = .ok outs) : ∀ l, l ∈ outs → P l := by
  intro l hl
  obtain ⟨steps, hsteps, hfold⟩ := (transfer_outputs h).2 l hl
  apply Outcome.foldlM_keeps (fun _ current => P current) hdefault _ hfold
  intro _ rule current next hrule hcurrent hnext
  apply InferenceRule.apply_keeps hinputs hcurrent _ _ hnext
  · intro c tag hc
    obtain ⟨d, e, hd, he, hr⟩ := hsteps rule hrule
    have htag : rule.changedTag? = some tag := by simp [InferenceRule.changedTag?, hc]
    have hmem : tag ∈ r.changedTags := List.mem_flatMap.mpr ⟨d, hd, List.mem_flatMap.mpr
      ⟨e, he, List.mem_filterMap.mpr ⟨rule, hr, htag⟩⟩⟩
    exact hchange c tag current hmem hcurrent
  · intro kind positions l' hl'
    exact hmerge kind positions current l' hcurrent hl'

theorem transfer_within {r : RuleSet} {o : Operation} {inputs outs : List Label}
    (hinputs : ∀ l, l ∈ inputs → l.Within r.changedTags) (h : r.transfer o inputs = .ok outs) :
    ∀ l, l ∈ outs → l.Within r.changedTags :=
  transfer_keeps hinputs (Label.default_within hinputs)
    (fun c _ _ htag hcurrent => Label.change_within hcurrent c htag)
    (fun _ _ _ _ hcurrent hl => Label.merge_within hinputs hcurrent hl) h

/-- Nothing comes of nothing: no output is known when no input is. -/
theorem transfer_unknown {r : RuleSet} {o : Operation} {inputs outs : List Label}
    (hne : inputs ≠ []) (hinputs : ∀ l, l ∈ inputs → l = .unknown)
    (h : r.transfer o inputs = .ok outs) : ∀ l, l ∈ outs → l = .unknown := by
  apply transfer_keeps hinputs _ _ _ h
  · obtain ⟨l, hl⟩ := List.exists_mem_of_ne_nil inputs hne
    exact Label.default_of_unknown (hinputs l hl ▸ hl)
  · intro c tag current _ hcurrent
    rw [hcurrent]
    exact Label.change_unknown c tag
  · intro kind positions current l hcurrent hl
    rw [hcurrent] at hl
    cases hl
    rfl

/-- Every output is known when every input is. -/
theorem transfer_known {r : RuleSet} {o : Operation} {inputs outs : List Label}
    (hinputs : ∀ l, l ∈ inputs → l ≠ .unknown) (h : r.transfer o inputs = .ok outs) :
    ∀ l, l ∈ outs → l ≠ .unknown := by
  have hnone : ¬ .unknown ∈ inputs := fun hu => hinputs _ hu rfl
  apply transfer_keeps hinputs _ _ _ h
  · obtain ⟨secrecy, hs, -⟩ := Label.default_of_known hnone
    simp [hs]
  · intro c tag current _ hcurrent
    exact Label.change_known hcurrent c tag
  · intro kind positions current l hcurrent hl
    exact Label.merge_known hnone hcurrent hl

/-! ## The analysis -/

theorem analysis_joinLaws (r : RuleSet) : r.analysis.JoinLaws where
  bottom_join := Label.unknown_join
  join_self := Label.join_self
  join_comm := Label.join_comm
  join_assoc := Label.join_assoc

theorem analysis_ranked (r : RuleSet) :
    r.analysis.Ranked (Label.Within r.changedTags) (Label.rank r.changedTags) where
  good_bottom := trivial
  good_initial :=
    ⟨fun t ht => absurd ht (OrdSet.not_mem_empty t), fun t ht => absurd ht (OrdSet.not_mem_empty t)⟩
  good_join _ _ := Label.Within.join
  good_transfer _ _ _ := transfer_within
  rank_le _ h := Nat.le_succ_of_le (Label.rank_le h)
  rank_lt _ _ hl _ := Label.rank_lt_of_join_ne hl

theorem analysis_strict (r : RuleSet) : r.analysis.Strict :=
  fun _ _ _ hne hinputs h => transfer_unknown hne hinputs h

theorem analysis_totalOn {r : RuleSet} {ops : List Operation} (h : ∀ o, o ∈ ops → r.Fits o) :
    r.analysis.TotalOn ops :=
  fun o ho _ hlen => transfer_total (h o ho) hlen

end RuleSet

end TagFlow
