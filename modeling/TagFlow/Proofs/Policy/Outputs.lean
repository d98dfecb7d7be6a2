import TagFlow.Proofs.Policy.Treatment

/-! # What treated operations compute

The treatment of an operation determines the label of its first output, and all its other
outputs have the default label. A treatment suits an operation when it can be computed at
all, whatever the labels of the inputs are: there has to be an output to treat, and a first
input where one is copied.
-/

namespace TagFlow

open Compile TagNames

namespace Treatment

def Suits (o : Operation) : Treatment → Prop
  | plain => True
  | rule _ => 0 < o.outputCount ∧ 0 < o.inputs.length
  | merge _ _ => 0 < o.outputCount

def Fires (names : List String) (o : Operation) (inputs : List Label) (rule : PolicyRule) : Prop :=
  ∃ roles, o.roles = .ok roles ∧ ∀ p, p ∈ rule.preconditions → Met roles names inputs p

/-- The label of the first output. -/
def Gives (names : List String) (o : Operation) (inputs : List Label) : Treatment → Label → Prop
  | plain, l => l = Label.default inputs
  | rule authored, l => ∃ v tag, inputs[0]? = some v ∧ number? names authored.tag = some tag ∧
      (Fires names o inputs authored ∧ l = v.change authored.action.change tag ∨
        ¬ Fires names o inputs authored ∧ l = v)
  | merge kind direct, l =>
      Label.merge kind (List.range direct) inputs (Label.default inputs) = .ok l

end Treatment

namespace Compile

variable {r : RuleSet} {o : Operation} {t : Treatment} {inputs outs : List Label}

/-- An action for the first output is refused where there is none, or where its steps fail. -/
theorem refined_of_transfer {action : String} {first : List InferenceRule}
    (haction : r.actions.find? o.id = some action)
    (hrules : r.rules.find? action = some (.ofList [(0, first)]))
    (h : r.transfer o inputs = .ok outs) :
    0 < o.outputCount ∧
      ∃ l, first.foldlM (InferenceRule.apply inputs) (Label.default inputs) = .ok l := by
  have hentries : (OrdMap.ofList [(0, first)] : OutputRules).entries = [(0, first)] := rfl
  simp only [RuleSet.transfer, haction, hrules, hentries, List.foldlM_cons, List.foldlM_nil,
    RuleSet.refine] at h
  obtain ⟨results, h, -⟩ := Outcome.bind_eq_ok.mp h
  split at h
  · rename_i hout
    obtain ⟨l, hl, -⟩ := Outcome.bind_eq_ok.mp h
    exact ⟨hout, l, hl⟩
  · cases h

theorem Treats.suits (h : Treats r o t) (hlen : inputs.length = o.inputs.length)
    (houts : r.transfer o inputs = .ok outs) : t.Suits o := by
  cases t with
  | plain => trivial
  | rule rule =>
      obtain ⟨action, roles, tag, ps, haction, hrules, -⟩ := h
      obtain ⟨hout, l, hl⟩ := refined_of_transfer haction hrules houts
      refine ⟨hout, ?_⟩
      obtain ⟨copied, hcopy, -⟩ := Outcome.bind_eq_ok.mp hl
      cases inputs with
      | nil => cases hcopy
      | cons v rest =>
          rw [← hlen, List.length_cons]
          omega
  | merge kind direct =>
      obtain ⟨action, haction, hrules, -⟩ := h
      exact (refined_of_transfer haction hrules houts).1

theorem Treats.fits (h : Treats r o t) (suits : t.Suits o) : r.Fits o := by
  cases t with
  | plain =>
      intro action haction
      rw [show r.actions.find? o.id = none from h] at haction
      cases haction
  | rule rule => exact Compiled.fits h suits.1 suits.2
  | merge kind direct =>
      obtain ⟨action, haction, hrules, hdirect⟩ := h
      intro action' haction'
      rw [haction, Option.some.injEq] at haction'
      subst haction'
      refine ⟨_, hrules, ?_⟩
      intro e he
      have he : e = (0, [⟨.merge kind (List.range direct), []⟩]) := List.mem_singleton.mp he
      have hle := Operation.controlStart_le hdirect
      have hout : 0 < o.outputCount := suits
      simp [he, hout, InferenceRule.InRange, Conclusion.positions]
      omega

theorem Treats.transfer (h : Treats r o t) (suits : t.Suits o)
    (hlen : inputs.length = o.inputs.length) :
    ∃ l, t.Gives r.tagNames o inputs l ∧
      r.transfer o inputs =
        .ok ((List.replicate o.outputCount (Label.default inputs)).set 0 l) := by
  cases t with
  | plain =>
      refine ⟨Label.default inputs, rfl, ?_⟩
      rw [List.set_replicate_self]
      exact RuleSet.transfer_unmarked h inputs
  | rule rule =>
      have hpos : 0 < inputs.length := by rw [hlen]; exact suits.2
      have hfirst : inputs[0]? = some inputs[0] := List.getElem?_eq_getElem hpos
      obtain ⟨roles, tag, met, hroles, htag, hmet, ht⟩ :=
        Compiled.transfer_set h suits.1 hlen hfirst
      have fires : met = true ↔ Treatment.Fires r.tagNames o inputs rule := by
        rw [hmet]
        constructor
        · exact fun all => ⟨roles, hroles, all⟩
        · intro ⟨roles', hroles', all⟩
          rw [hroles, Except.ok.injEq] at hroles'
          exact hroles' ▸ all
      refine ⟨_, ⟨inputs[0], tag, hfirst, htag, ?_⟩, ht⟩
      cases met with
      | true => exact .inl ⟨fires.mp rfl, rfl⟩
      | false => exact .inr ⟨fun hf => Bool.noConfusion (fires.mpr hf), rfl⟩
  | merge kind direct =>
      obtain ⟨action, haction, hrules, hdirect⟩ := h
      have hrange : ∀ i, i ∈ List.range direct → i < inputs.length := by
        have hle := Operation.controlStart_le hdirect
        simp only [List.mem_range]
        omega
      obtain ⟨l, hl⟩ := Label.merge_total kind hrange (Label.default inputs)
      refine ⟨l, hl, transfer_first haction hrules suits ?_⟩
      simp [InferenceRule.apply, InferenceRule.premisesHold, InferenceRule.conclude, hl, bind,
        Except.bind, pure, Except.pure]

theorem getElem?_first {n i : Nat} {d l s : Label} :
    ((List.replicate n d).set 0 l)[i]? = some s ↔ i < n ∧ s = if i = 0 then l else d := by
  cases i with
  | zero => cases n <;> simp [List.replicate_succ, eq_comm]
  | succ i => rw [List.getElem?_set_ne (by omega)]; simp [List.getElem?_replicate, eq_comm]

end Compile

/-- Where every treatment suits its operation, every operation can be evaluated. -/
theorem Realizes.totalOn {rules : List PolicyRule} {m : Module} {r : RuleSet}
    (realizes : Realizes rules m r)
    (suits : ∀ o, o ∈ m.operations → ∀ t, Treatment.Assigned rules m o t → t.Suits o) :
    r.analysis.TotalOn m.operations := by
  apply RuleSet.analysis_totalOn
  intro o ho
  obtain ⟨t, assigned⟩ := Treatment.exists_assigned rules m o
  exact (realizes.treats o ho t assigned).fits (suits o ho t assigned)

end TagFlow
