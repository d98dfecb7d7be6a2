import TagFlow.Proofs.Policy.RescanRenumbered
import TagFlow.Proofs.Policy.Roles
import TagFlow.Proofs.Policy.Treatment

/-! # The numbers of tags cannot be observed

Tags are numbered in the order of first use: first the given ones, then those of the rules that the
transforms of the module name. Another order of the rules or other given tags lead to other numbers
and to nothing else. Compiling takes the same steps on both sides and leads to rule sets that are
alike; so do the rule books made from the rules.
-/

namespace TagFlow

open TagNames

namespace RuleSet

variable {r r' : RuleSet}

theorem alike_ofSeeds {seeds seeds' : List String} (distinct : seeds.Nodup)
    (distinct' : seeds'.Nodup) : Alike { tagNames := seeds } { tagNames := seeds' } :=
  ⟨distinct, distinct', rfl, OrdMap.Related.empty⟩

/-- A name gets a number on both sides, and earlier tags keep theirs. -/
theorem Alike.intern (h : r.Alike r') (name : String) :
    (r.intern name).2.Alike (r'.intern name).2 ∧
      Twins (r.intern name).2.tagNames (r'.intern name).2.tagNames (r.intern name).1
        (r'.intern name).1 := by
  obtain ⟨hactions, hrules, grown, hn⟩ := r.intern_spec name
  obtain ⟨hactions', hrules', grown', hn'⟩ := r'.intern_spec name
  have rules : r.rules.Related
      (OutputsAlike (r.intern name).2.tagNames (r'.intern name).2.tagNames) r'.rules :=
    h.rules.mono fun _ _ outputs => outputs.mono fun _ _ steps =>
      steps.imp fun _ _ step => step.grow grown grown'
  refine ⟨⟨grown.nodup h.nodup, grown'.nodup h.nodup', ?_, ?_⟩, name, hn, hn'⟩
  · rw [hactions, hactions', h.actions]
  · rw [hrules, hrules']
    exact rules

theorem Alike.mark (h : r.Alike r') (id : OperationId) (action : String) :
    Outcome.Related Alike (r.mark id action) (r'.mark id action) := by
  unfold RuleSet.mark
  rw [← h.actions]
  split
  · exact .error _
  · exact .ok ⟨h.nodup, h.nodup', rfl, h.rules⟩

theorem Alike.addRules (h : r.Alike r') (action : String) {outputs outputs' : OutputRules}
    (houtputs : OutputsAlike r.tagNames r'.tagNames outputs outputs') :
    Outcome.Related Alike (r.addRules action outputs) (r'.addRules action outputs') := by
  unfold RuleSet.addRules
  rw [h.rules.contains_eq action]
  split
  · exact .error _
  · exact .ok ⟨h.nodup, h.nodup', h.actions, h.rules.insert action houtputs⟩

end RuleSet

namespace Compile

variable {r r' : RuleSet}

/-- Premises on both sides, with rule sets that have all names of the earlier ones. -/
structure PremisesAlike (r r' : RuleSet) (x y : List Premise × RuleSet) : Prop where
  alike : x.2.Alike y.2
  grown : Grows r.tagNames x.2.tagNames
  grown' : Grows r'.tagNames y.2.tagNames
  premises : List.Forall₂ (Premise.Alike x.2.tagNames y.2.tagNames) x.1 y.1

theorem premises_alike (roles : List (String × Nat)) (preconditions : List Precondition)
    (h : r.Alike r') :
    Outcome.Related (PremisesAlike r r') (premises roles r preconditions)
      (premises roles r' preconditions) := by
  induction preconditions generalizing r r' with
  | nil => exact .ok ⟨h, .refl _, .refl _, .nil⟩
  | cons p rest ih =>
      obtain ⟨alike, twins⟩ := h.intern p.requiredTag
      have grown := (r.intern_spec p.requiredTag).2.2.1
      have grown' := (r'.intern_spec p.requiredTag).2.2.1
      simp only [premises]
      cases roles.lookup p.argument with
      | none => exact .error _
      | some position =>
          refine (ih alike).bind fun x y later => .ok ?_
          exact ⟨later.alike, grown.trans later.grown, grown'.trans later.grown',
            .cons ⟨rfl, twins.grow later.grown later.grown'⟩ later.premises⟩

theorem transformRules_alike (rule : PolicyRule) (o : Operation) (h : r.Alike r') :
    Outcome.Related (fun x y => x.2.Alike y.2 ∧
        RuleSet.OutputsAlike x.2.tagNames y.2.tagNames x.1 y.1)
      (transformRules rule o r) (transformRules rule o r') := by
  unfold transformRules
  refine (Outcome.Related.refl o.roles).bind fun roles _ e => ?_
  subst e
  refine (premises_alike roles rule.preconditions h).bind fun x y later => .ok ?_
  obtain ⟨alike, twins⟩ := later.alike.intern rule.tag
  have grown := (x.2.intern_spec rule.tag).2.2.1
  have grown' := (y.2.intern_spec rule.tag).2.2.1
  refine ⟨alike, OrdMap.Related.empty.insert 0 (.cons ?_ (.cons ?_ .nil))⟩
  · exact ⟨.copy 0, .nil⟩
  · exact ⟨.modify rule.action.change twins,
      later.premises.imp fun _ _ premise => premise.grow grown grown'⟩

theorem internal_alike (m : Module) (o : Operation) (name action : String) (h : r.Alike r') :
    Outcome.Related RuleSet.Alike (internal m o name action r) (internal m o name action r') := by
  unfold internal
  refine (Outcome.Related.refl (mergeOperand m o)).bind fun operand _ e => ?_
  subst e
  refine (h.mark operand.id action).bind fun r r' h => ?_
  unfold mergeRules
  cases operand.controlStart with
  | error e => exact .error e
  | ok start =>
      have outputs : RuleSet.OutputsAlike r.tagNames r'.tagNames
          (.ofList [(0, [⟨.merge (if name = Sql.unionRule then .union else .intersect)
            (List.range start), []⟩])])
          (.ofList [(0, [⟨.merge (if name = Sql.unionRule then .union else .intersect)
            (List.range start), []⟩])]) :=
        OrdMap.Related.empty.insert 0 (.cons ⟨.merge _ _, .nil⟩ .nil)
      exact h.addRules action outputs

variable {rules rules' : List PolicyRule}
  (same : ∀ name, rules.find? (·.name = name) = rules'.find? (·.name = name))

include same

theorem authored_alike (o : Operation) (name action : String) (h : r.Alike r') :
    Outcome.Related RuleSet.Alike (authored rules o name action r)
      (authored rules' o name action r') := by
  unfold authored
  rw [← same name]
  cases rules.find? (·.name = name) with
  | none => exact .error _
  | some rule =>
      refine (h.mark o.id action).bind fun r r' h => ?_
      exact (transformRules_alike rule o h).bind fun x y compiled =>
        compiled.1.addRules action compiled.2

structure Progress.Alike (p q : Progress) : Prop where
  ruleSet : p.ruleSet.Alike q.ruleSet
  counts : p.counts = q.counts

theorem operation_alike (m : Module) (o : Operation) {p q : Progress} (h : p.Alike q) :
    Outcome.Related Progress.Alike (operation rules m p o) (operation rules' m q o) := by
  unfold operation
  split
  · refine (Outcome.Related.refl o.ruleName).bind fun name _ e => ?_
    subst e
    rw [← h.counts]
    simp only
    split
    · exact (internal_alike m o name _ h.ruleSet).bind fun _ _ alike => .ok ⟨alike, rfl⟩
    · exact (authored_alike same o name _ h.ruleSet).bind fun _ _ alike => .ok ⟨alike, rfl⟩
  · exact .ok h

end Compile

/-- Names are distinct, so the order does not decide which rule a name finds. -/
theorem find?_name_perm {rules rules' : List PolicyRule} (distinct : (rules.map (·.name)).Nodup)
    (perm : rules.Perm rules') (name : String) :
    rules.find? (·.name = name) = rules'.find? (·.name = name) := by
  have distinct' : (rules'.map (·.name)).Nodup := (perm.map _).nodup_iff.mp distinct
  cases hf : rules.find? (·.name = name) with
  | none =>
      symm
      rw [List.find?_eq_none] at hf ⊢
      intro rule hrule
      exact hf rule (perm.mem_iff.mpr hrule)
  | some rule =>
      have hname : rule.name = name := by simpa using List.find?_some hf
      have hmem := perm.mem_iff.mp (List.mem_of_find?_eq_some hf)
      rw [← hname]
      exact (Outcome.find?_key_of_mem distinct' hmem).symm

theorem compile_alike {rules rules' : List PolicyRule} (distinct : (rules.map (·.name)).Nodup)
    (perm : rules.Perm rules') (m : Module) {seeds seeds' : List String}
    (hseeds : seeds.Nodup) (hseeds' : seeds'.Nodup) :
    Outcome.Related RuleSet.Alike (compile rules m seeds) (compile rules' m seeds') := by
  have distinct' : (rules'.map (·.name)).Nodup := (perm.map _).nodup_iff.mp distinct
  have start : Compile.Progress.Alike { ruleSet := { tagNames := seeds } }
      { ruleSet := { tagNames := seeds' } } := ⟨RuleSet.alike_ofSeeds hseeds hseeds', rfl⟩
  have compiled := Outcome.Related.foldlM_same m.operations start fun _ _ o h =>
    Compile.operation_alike (find?_name_perm distinct perm) m o h
  unfold compile
  rw [Compile.ofSeeds_eq_ok.mpr ⟨hseeds, rfl⟩, Compile.ofSeeds_eq_ok.mpr ⟨hseeds', rfl⟩,
    firstRepeat?_eq_none_iff.mpr distinct, firstRepeat?_eq_none_iff.mpr distinct']
  exact compiled.bind fun _ _ h => .ok h.ruleSet

/-- Rules in another order and other given tags change the numbers of tags and nothing that has a
name: both ways of checking give the same verdict, and every value the same tags by name. -/
theorem numbering_unobservable {rules rules' : List PolicyRule}
    (distinct : (rules.map (·.name)).Nodup) (perm : rules.Perm rules') (m : Module) :
    (∀ seeds seeds' : List String, seeds.Nodup → seeds'.Nodup →
      Outcome.Related
        (fun r r' =>
          Outcome.Related (OrdMap.Related (Label.Alike r.tagNames r'.tagNames)) (r.labels m)
            (r'.labels m) ∧
          ∀ egress, Egress.check r egress m = Egress.check r' egress m)
        (compile rules m seeds) (compile rules' m seeds')) ∧
    ∃ book book', RuleBook.ofRules rules = .ok book ∧ RuleBook.ofRules rules' = .ok book' ∧
      Outcome.Related (Option.Rel (Rescan.Fixpoint.Alike book.tagNames book'.tagNames))
        (Rescan.fixpoint book m) (Rescan.fixpoint book' m) ∧
      Rescan.check book m = Rescan.check book' m := by
  constructor
  · intro seeds seeds' hseeds hseeds'
    exact (compile_alike distinct perm m hseeds hseeds').mono fun r r' alike =>
      ⟨alike.labels_alike m, fun egress => Egress.check_eq alike egress m⟩
  · obtain ⟨book, hbook, -⟩ := RuleBook.ofRules_total distinct
    obtain ⟨book', hbook', -⟩ := RuleBook.ofRules_total ((perm.map _).nodup_iff.mp distinct)
    have alike := RuleBook.alike_ofRules perm hbook hbook'
    exact ⟨book, book', hbook, hbook', Rescan.fixpoint_alike alike m, Rescan.check_eq alike m⟩

namespace Shuffled

def rules : List PolicyRule :=
  [⟨"classify", .addConfidentiality, "secret", []⟩,
    ⟨"review", .addIntegrity, "reviewed", []⟩,
    ⟨"release", .removeConfidentiality, "secret", [⟨"reviewer", "reviewed"⟩]⟩]

/-- A secret that is released on review, and goes out a second time without. -/
def root : Module :=
  ⟨0, [⟨0, none, .empty, .empty, .empty,
    [.standalone 0 Sql.literal [] [],
      .standalone 1 Sql.tagTransform [(Sql.ruleName, .text "classify")] [.result 0 0],
      .standalone 2 Sql.tagTransform [(Sql.ruleName, .text "review")] [.result 1 0],
      .standalone 3 Sql.tagTransform
        [(Sql.ruleName, .text "release"), ("reviewer", .integer 1)] [.result 1 0, .result 2 0],
      .standalone 4 Sql.output [] [.result 3 0, .result 2 0]]⟩]⟩

/-- The tags are numbered the other way round in both kinds of runs. -/
theorem numbering_unobservable_root :
    (rules.map (·.name)).Nodup ∧ rules.Perm rules.reverse ∧
      (∃ r r', compile rules root [] = .ok r ∧ compile rules.reverse root ["reviewed"] = .ok r' ∧
        r.tagNames = ["secret", "reviewed"] ∧ r'.tagNames = ["reviewed", "secret"] ∧
          Outcome.Related (OrdMap.Related (Label.Alike r.tagNames r'.tagNames)) (r.labels root)
            (r'.labels root) ∧
          Egress.check r [Sql.output] root = Egress.check r' [Sql.output] root) ∧
      ∃ book book', RuleBook.ofRules rules = .ok book ∧
        RuleBook.ofRules rules.reverse = .ok book' ∧ book.tagNames ≠ book'.tagNames ∧
          Rescan.check book root = Rescan.check book' root := by
  have distinct : (rules.map (·.name)).Nodup := by decide
  have perm : rules.Perm rules.reverse := rules.reverse_perm.symm
  obtain ⟨compiled, book, book', hbook, hbook', -, checked⟩ :=
    numbering_unobservable distinct perm root
  obtain ⟨r, r', hr, hr', hnames, hnames'⟩ : ∃ r r', compile rules root [] = .ok r ∧
      compile rules.reverse root ["reviewed"] = .ok r' ∧
        r.tagNames = ["secret", "reviewed"] ∧ r'.tagNames = ["reviewed", "secret"] :=
    ⟨_, _, rfl, rfl, rfl, rfl⟩
  obtain ⟨labels, verdicts⟩ := (compiled [] ["reviewed"] (by decide) (by decide)).of_ok hr hr'
  refine ⟨distinct, perm, ⟨r, r', hr, hr', hnames, hnames', labels, verdicts _⟩,
    book, book', hbook, hbook', ?_, checked⟩
  cases hbook
  cases hbook'
  decide

end Shuffled

end TagFlow
