import Mathlib.Data.List.Nodup
import TagFlow.Policy.Compile
import TagFlow.Proofs.Label.TagNames
import TagFlow.Proofs.Label.Transfer
import TagFlow.Proofs.Policy.Roles

/-! # What tag transforms are compiled to

A tag transform with an authored rule gets an action of its own: copy the transformed value,
then change the rule's tag under one premise for each precondition. What it computes is the
label of the transformed value, changed as the rule says when the preconditions hold.
-/

namespace TagFlow

open TagNames

namespace Compile

/-! ## Names of actions

The number at the end of a name has no underscore, so the last underscore of the name
separates the rule from the number. -/

theorem underscore_not_mem (n : Nat) : '_' ∉ (toString n).toList := by
  intro h
  have hdigits : '_' ∈ Nat.toDigits 10 n := by
    rw [Nat.toString_eq_repr, Nat.toList_repr] at h
    exact h
  have hdigit := Nat.isDigit_of_mem_toDigits (by decide) (by decide) hdigits
  exact absurd hdigit (by decide)

theorem split_last_underscore {front front' back back' : List Char} (hback : '_' ∉ back)
    (hback' : '_' ∉ back') (h : front ++ '_' :: back = front' ++ '_' :: back') :
    front = front' ∧ back = back' := by
  have inside : ∀ middle, '_' :: back = middle ++ '_' :: back' ∨
      '_' :: back' = middle ++ '_' :: back → middle = [] := by
    intro middle hmiddle
    cases middle with
    | nil => rfl
    | cons c rest =>
        rcases hmiddle with hm | hm
        · injection hm with _ hm
          exact absurd (by simp [hm]) hback
        · injection hm with _ hm
          exact absurd (by simp [hm]) hback'
  rcases List.append_eq_append_iff.mp h with ⟨middle, hfront, hm⟩ | ⟨middle, hfront, hm⟩
  · have hnil := inside middle (.inl hm)
    subst hnil
    simp at hfront hm
    exact ⟨hfront.symm, hm⟩
  · have hnil := inside middle (.inr hm)
    subst hnil
    simp at hfront hm
    exact ⟨hfront, hm.symm⟩

theorem actionName_inj {name name' : String} {count count' : Nat}
    (h : name ++ "_" ++ toString count = name' ++ "_" ++ toString count') :
    name = name' ∧ count = count' := by
  have hchars := congrArg String.toList h
  rw [String.toList_append, String.toList_append, String.toList_append, String.toList_append,
    List.append_assoc, List.append_assoc] at hchars
  obtain ⟨hname, hcount⟩ :=
    split_last_underscore (underscore_not_mem count) (underscore_not_mem count') hchars
  refine ⟨String.toList_inj.mp hname, ?_⟩
  rw [Nat.toString_eq_repr, Nat.toString_eq_repr, Nat.toList_repr, Nat.toList_repr] at hcount
  calc
    count = Nat.ofDigitChars 10 (Nat.toDigits 10 count) 0 := Nat.ofDigitChars_ten_toDigits.symm
    _ = Nat.ofDigitChars 10 (Nat.toDigits 10 count') 0 := by rw [hcount]
    _ = count' := Nat.ofDigitChars_ten_toDigits

/-! ## One transform -/

/-- A premise looks at the input in the role of the argument for the required tag. -/
def Matches (roles : List (String × Nat)) (names : List String) (p : Precondition) (q : Premise) :
    Prop :=
  roles.lookup p.argument = some q.input ∧ number? names p.requiredTag = some q.tag

theorem premises_total {roles : List (String × Nat)} {preconditions : List Precondition}
    (given : ∀ p, p ∈ preconditions → ∃ position, roles.lookup p.argument = some position)
    (r : RuleSet) :
    ∃ ps r', premises roles r preconditions = .ok (ps, r') ∧ r'.actions = r.actions ∧
      r'.rules = r.rules ∧ Grows r.tagNames r'.tagNames ∧
        List.Forall₂ (Matches roles r'.tagNames) preconditions ps := by
  induction preconditions generalizing r with
  | nil => exact ⟨[], r, rfl, rfl, rfl, .refl _, .nil⟩
  | cons p rest ih =>
      obtain ⟨position, hposition⟩ := given p (by simp)
      obtain ⟨hactions, hrules, hgrows, htag⟩ := RuleSet.intern_spec r p.requiredTag
      obtain ⟨ps, r', hps, hactions', hrules', hgrows', hall⟩ :=
        ih (fun q hq => given q (List.mem_cons_of_mem p hq)) (r.intern p.requiredTag).2
      refine ⟨⟨position, (r.intern p.requiredTag).1⟩ :: ps, r', ?_, hactions'.trans hactions,
        hrules'.trans hrules, hgrows.trans hgrows', ?_⟩
      · simp only [premises, hposition, hps]
        rfl
      · exact .cons ⟨hposition, number?_of_isPrefix hgrows'.isPrefix htag⟩ hall

/-- The steps for the one output of a transform. -/
def steps (rule : PolicyRule) (tag : Tag) (ps : List Premise) : OutputRules :=
  .ofList [(0, [⟨.copy 0, []⟩, ⟨.modify rule.action.change tag, ps⟩])]

def Compiled (r : RuleSet) (o : Operation) (rule : PolicyRule) : Prop :=
  ∃ action roles tag ps, r.actions.find? o.id = some action ∧
    r.rules.find? action = some (steps rule tag ps) ∧ o.roles = .ok roles ∧
    number? r.tagNames rule.tag = some tag ∧
    List.Forall₂ (Matches roles r.tagNames) rule.preconditions ps

/-! ### What it computes -/

/-- The input in the role of the argument carries the required tag. -/
def Met (roles : List (String × Nat)) (names : List String) (inputs : List Label)
    (p : Precondition) : Prop :=
  ∃ position s i tag, roles.lookup p.argument = some position ∧
    inputs[position]? = some (.known s i) ∧ number? names p.requiredTag = some tag ∧ tag ∈ i

theorem premisesHold_iff_met {roles : List (String × Nat)} {names : List String}
    {preconditions : List Precondition} {ps : List Premise}
    (h : List.Forall₂ (Matches roles names) preconditions ps) (inputs : List Label) :
    InferenceRule.premisesHold inputs ps = .ok true ↔
      ∀ p, p ∈ preconditions → Met roles names inputs p := by
  rw [InferenceRule.premisesHold_eq_true]
  constructor
  · intro hold p hp
    obtain ⟨q, hq, hposition, htag⟩ := Outcome.exists_right_of_forall₂ h hp
    obtain ⟨s, i, hi, hmem⟩ := hold q hq
    exact ⟨q.input, s, i, q.tag, hposition, hi, htag, hmem⟩
  · intro met q hq
    obtain ⟨p, hp, hposition, htag⟩ := Outcome.exists_left_of_forall₂ h hq
    obtain ⟨position, s, i, tag, hposition', hi, htag', hmem⟩ := met p hp
    rw [hposition, Option.some.injEq] at hposition'
    rw [htag, Option.some.injEq] at htag'
    subst hposition' htag'
    exact ⟨s, i, hi, hmem⟩

theorem premises_bounds {r : RuleSet} {o : Operation} {roles : List (String × Nat)}
    (hroles : o.roles = .ok roles) {preconditions : List Precondition} {ps : List Premise}
    (h : List.Forall₂ (Matches roles r.tagNames) preconditions ps) :
    ∀ q, q ∈ ps → q.input < o.inputs.length := by
  intro q hq
  obtain ⟨p, -, hposition, -⟩ := Outcome.exists_left_of_forall₂ h hq
  exact (Operation.roles_bounds hroles ((Operation.lookup_roles hroles).mp hposition)).2

theorem Compiled.fits {r : RuleSet} {o : Operation} {rule : PolicyRule} (h : Compiled r o rule)
    (hout : 0 < o.outputCount) (hin : 0 < o.inputs.length) : r.Fits o := by
  obtain ⟨action, roles, tag, ps, haction, hsteps, hroles, -, hps⟩ := h
  intro action' haction'
  rw [haction, Option.some.injEq] at haction'
  subst haction'
  refine ⟨steps rule tag ps, hsteps, ?_⟩
  intro e he
  have he : e = (0, [⟨.copy 0, []⟩, ⟨.modify rule.action.change tag, ps⟩]) :=
    List.mem_singleton.mp he
  have hbounds := premises_bounds hroles hps
  simp [he, hout, InferenceRule.InRange, Conclusion.positions, hin]
  exact hbounds

theorem transfer_first {r : RuleSet} {o : Operation} {action : String} {first : List InferenceRule}
    {inputs : List Label} {l : Label} (haction : r.actions.find? o.id = some action)
    (hrules : r.rules.find? action = some (.ofList [(0, first)])) (hout : 0 < o.outputCount)
    (hl : first.foldlM (InferenceRule.apply inputs) (Label.default inputs) = .ok l) :
    r.transfer o inputs =
      .ok ((List.replicate o.outputCount (Label.default inputs)).set 0 l) := by
  have hentries : (OrdMap.ofList [(0, first)] : OutputRules).entries = [(0, first)] := rfl
  simp only [RuleSet.transfer, haction, hrules, hentries, List.foldlM_cons, List.foldlM_nil,
    RuleSet.refine, hout, if_true, hl, bind, Except.bind, pure, Except.pure]

/-- The label of the transformed value, changed as the rule says when the preconditions hold;
outputs after the first have the default label. -/
theorem Compiled.transfer_set {r : RuleSet} {o : Operation} {rule : PolicyRule}
    (h : Compiled r o rule) (hout : 0 < o.outputCount) {inputs : List Label} {l : Label}
    (hlen : inputs.length = o.inputs.length) (hl : inputs[0]? = some l) :
    ∃ roles tag met, o.roles = .ok roles ∧ number? r.tagNames rule.tag = some tag ∧
      (met = true ↔ ∀ p, p ∈ rule.preconditions → Met roles r.tagNames inputs p) ∧
      r.transfer o inputs = .ok ((List.replicate o.outputCount (Label.default inputs)).set 0
        (if met then l.change rule.action.change tag else l)) := by
  obtain ⟨action, roles, tag, ps, haction, hsteps, hroles, htag, hps⟩ := h
  have hbounds : ∀ q, q ∈ ps → q.input < inputs.length := by
    rw [hlen]
    exact premises_bounds hroles hps
  obtain ⟨met, hmet⟩ := InferenceRule.premisesHold_total hbounds
  refine ⟨roles, tag, met, hroles, htag, ?_, transfer_first haction hsteps hout ?_⟩
  · rw [← premisesHold_iff_met hps, hmet, Except.ok.injEq]
  · have hcopy : InferenceRule.apply inputs (Label.default inputs) ⟨.copy 0, []⟩ = .ok l := by
      simp [InferenceRule.apply, InferenceRule.premisesHold, InferenceRule.conclude, hl, bind,
        Except.bind]
    have hchange : InferenceRule.apply inputs l ⟨.modify rule.action.change tag, ps⟩ =
        .ok (if met then l.change rule.action.change tag else l) := by
      cases met <;> simp [InferenceRule.apply, hmet, InferenceRule.conclude, bind, Except.bind,
        pure, Except.pure]
    simp only [List.foldlM_cons, List.foldlM_nil, hcopy, hchange, bind, Except.bind]
    rfl

theorem Compiled.transfer {r : RuleSet} {o : Operation} {rule : PolicyRule}
    (h : Compiled r o rule) (one : o.outputCount = 1) {inputs : List Label} {l : Label}
    (hlen : inputs.length = o.inputs.length) (hl : inputs[0]? = some l) :
    ∃ roles tag met, o.roles = .ok roles ∧ number? r.tagNames rule.tag = some tag ∧
      (met = true ↔ ∀ p, p ∈ rule.preconditions → Met roles r.tagNames inputs p) ∧
      r.transfer o inputs = .ok [if met then l.change rule.action.change tag else l] := by
  obtain ⟨roles, tag, met, hroles, htag, hmet, ht⟩ := h.transfer_set (by omega) hlen hl
  refine ⟨roles, tag, met, hroles, htag, hmet, ?_⟩
  rw [ht, one]
  rfl

/-! ## Growing rule sets -/

/-- Names, actions and rules are only added. -/
structure Extends (r r' : RuleSet) : Prop where
  names : Grows r.tagNames r'.tagNames
  actions : ∀ id action, r.actions.find? id = some action → r'.actions.find? id = some action
  rules : ∀ action outputs, r.rules.find? action = some outputs →
    r'.rules.find? action = some outputs

theorem Compiled.extends {r r' : RuleSet} {o : Operation} {rule : PolicyRule}
    (h : Compiled r o rule) (ext : Extends r r') : Compiled r' o rule := by
  obtain ⟨action, roles, tag, ps, haction, hsteps, hroles, htag, hps⟩ := h
  refine ⟨action, roles, tag, ps, ext.actions _ _ haction, ext.rules _ _ hsteps, hroles,
    number?_of_isPrefix ext.names.isPrefix htag, ?_⟩
  exact hps.imp fun p q hpq => ⟨hpq.1, number?_of_isPrefix ext.names.isPrefix hpq.2⟩

/-- What a transform needs: a rule that is there, and a position for each of its arguments. -/
def Compilable (rules : List PolicyRule) (o : Operation) (rule : PolicyRule) : Prop :=
  rules.find? (·.name = rule.name) = some rule ∧ o.ruleName = .ok rule.name ∧
    Sql.isInternalRule rule.name = false ∧ ∃ roles, o.roles = .ok roles ∧
      ∀ p, p ∈ rule.preconditions → ∃ position, roles.lookup p.argument = some position

theorem Compilable.rule_unique {rules : List PolicyRule} {o : Operation} {rule rule' : PolicyRule}
    (h : Compilable rules o rule) (h' : Compilable rules o rule') : rule = rule' := by
  have hname := h.2.1
  rw [h'.2.1, Except.ok.injEq] at hname
  have hrule := h.1
  rw [← hname, h'.1, Option.some.injEq] at hrule
  exact hrule.symm

end Compile

end TagFlow
