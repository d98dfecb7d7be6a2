import TagFlow.Proofs.Label.Transfer

/-! # Faults of the rules

The rules of a set can fail on an operation only by naming something that is not there: an
action without rules, an output or an input that the operation does not have. Whether they
do can be read off the operation, whatever the labels of its inputs are.
-/

namespace TagFlow

/-- A step names an input that is not there, and this is the fault. -/
inductive InferenceRule.Rejects (rule : InferenceRule) (inputs : Nat) : Fault → Prop where
  | premise {p : Premise} (given : p ∈ rule.premises) (out : inputs ≤ p.input) :
      rule.Rejects inputs (.premiseOutOfBounds p.input inputs)
  | copy {index : Nat} (concluded : rule.conclusion = .copy index) (out : inputs ≤ index) :
      rule.Rejects inputs (.copyOutOfBounds index inputs)
  | merge {kind : MergeKind} {positions : List Nat} {index : Nat}
      (concluded : rule.conclusion = .merge kind positions) (listed : index ∈ positions)
      (out : inputs ≤ index) : rule.Rejects inputs (.mergeOutOfBounds index inputs)

/-- The rules do not fit the operation, and this is the fault. -/
inductive RuleSet.Rejects (r : RuleSet) (o : Operation) : Fault → Prop where
  | action {action : String} (marked : r.actions.find? o.id = some action)
      (missing : r.rules.find? action = none) : r.Rejects o (.missingAction action)
  | output {action : String} {outputs : OutputRules} {e : Nat × List InferenceRule}
      (marked : r.actions.find? o.id = some action) (given : r.rules.find? action = some outputs)
      (listed : e ∈ outputs.entries) (out : o.outputCount ≤ e.1) :
      r.Rejects o (.ruleOutputOutOfBounds e.1 action o.operator o.outputCount)
  | step {action : String} {outputs : OutputRules} {e : Nat × List InferenceRule}
      {rule : InferenceRule} {fault : Fault} (marked : r.actions.find? o.id = some action)
      (given : r.rules.find? action = some outputs) (listed : e ∈ outputs.entries)
      (taken : rule ∈ e.2) (rejected : rule.Rejects o.inputs.length fault) : r.Rejects o fault

namespace Label

theorem mergedIntegrity_eq_error {kind : MergeKind} {inputs : List Label}
    (known : ¬ unknown ∈ inputs) {positions : List Nat} {merged : Option TagSet} {fault : Fault}
    (h : mergedIntegrity kind inputs positions merged = .error fault) :
    ∃ index, index ∈ positions ∧ inputs.length ≤ index ∧
      fault = .mergeOutOfBounds index inputs.length := by
  induction positions generalizing merged with
  | nil => cases h
  | cons index rest ih =>
      simp only [mergedIntegrity] at h
      cases hget : inputs[index]? with
      | none =>
          simp only [hget, Except.error.injEq] at h
          exact ⟨index, by simp, List.getElem?_eq_none_iff.mp hget, h.symm⟩
      | some l =>
          cases l with
          | unknown => exact absurd (List.mem_of_getElem? hget) known
          | known s i =>
              simp only [hget, integrity, bind, Except.bind] at h
              obtain ⟨j, hj, out, hfault⟩ := ih h
              exact ⟨j, by simp [hj], out, hfault⟩

theorem merge_eq_error {kind : MergeKind} {positions : List Nat} {inputs : List Label}
    {current : Label} {fault : Fault} (h : merge kind positions inputs current = .error fault) :
    ∃ index, index ∈ positions ∧ inputs.length ≤ index ∧
      fault = .mergeOutOfBounds index inputs.length := by
  unfold merge at h
  split at h
  · cases h
  · rename_i guard
    rcases Outcome.bind_eq_error.mp h with h | ⟨merged, -, h⟩
    · exact mergedIntegrity_eq_error (known_of_guard guard) h
    · cases h

end Label

namespace InferenceRule

theorem premisesHold_eq_error {inputs : List Label} {premises : List Premise} {fault : Fault}
    (h : premisesHold inputs premises = .error fault) :
    ∃ p, p ∈ premises ∧ inputs.length ≤ p.input ∧
      fault = .premiseOutOfBounds p.input inputs.length := by
  induction premises with
  | nil => cases h
  | cons p rest ih =>
      rw [premisesHold] at h
      cases hget : inputs[p.input]? with
      | none =>
          simp only [hget, Except.error.injEq] at h
          exact ⟨p, by simp, List.getElem?_eq_none_iff.mp hget, h.symm⟩
      | some l =>
          cases l with
          | unknown => simp [hget] at h
          | known s i =>
              simp only [hget] at h
              split at h
              · obtain ⟨q, hq, out, hfault⟩ := ih h
                exact ⟨q, by simp [hq], out, hfault⟩
              · cases h

theorem apply_eq_error {inputs : List Label} {current : Label} {rule : InferenceRule}
    {fault : Fault} (h : apply inputs current rule = .error fault) :
    rule.Rejects inputs.length fault := by
  rcases Outcome.bind_eq_error.mp h with h | ⟨holds, -, h⟩
  · obtain ⟨p, given, out, rfl⟩ := premisesHold_eq_error h
    exact .premise given out
  · cases holds with
    | false => cases h
    | true =>
        cases hc : rule.conclusion with
        | copy index =>
            simp only [hc, conclude, if_true] at h
            cases hget : inputs[index]? with
            | none =>
                simp only [hget, Except.error.injEq] at h
                subst h
                exact .copy hc (List.getElem?_eq_none_iff.mp hget)
            | some l => simp [hget] at h
        | modify c tag => simp [hc, conclude] at h
        | merge kind positions =>
            simp only [hc, conclude, if_true] at h
            obtain ⟨index, listed, out, rfl⟩ := Label.merge_eq_error h
            exact .merge hc listed out

end InferenceRule

theorem RuleSet.transfer_eq_error {r : RuleSet} {o : Operation} {inputs : List Label}
    {fault : Fault} (arity : inputs.length = o.inputs.length)
    (h : r.transfer o inputs = .error fault) : r.Rejects o fault := by
  unfold transfer at h
  cases marked : r.actions.find? o.id with
  | none => simp [marked] at h
  | some action =>
      cases given : r.rules.find? action with
      | none =>
          simp only [marked, given, Except.error.injEq] at h
          subst h
          exact .action marked given
      | some outputs =>
          simp only [marked, given] at h
          obtain ⟨e, results, listed, h⟩ := Outcome.foldlM_eq_error h
          unfold refine at h
          split at h
          · rcases Outcome.bind_eq_error.mp h with h | ⟨l, -, h⟩
            · obtain ⟨rule, current, taken, h⟩ := Outcome.foldlM_eq_error h
              exact .step marked given listed taken (arity ▸ InferenceRule.apply_eq_error h)
            · cases h
          · rename_i out
            cases h
            exact .output marked given listed (Nat.le_of_not_lt out)

end TagFlow
