import TagFlow.Label.Inference
import TagFlow.Policy.Rule
import TagFlow.Policy.Sql

/-! # From policy rules to inference rules

Every tag transform of a module implements an action of its own, named after its rule
and the number of earlier transforms that name the same rule. Its label is that of the
transformed value, changed as the rule says when the preconditions hold. A transform
that names a built-in rule says instead how the merge it reads treats integrity.
-/

namespace TagFlow

def RuleAction.change : RuleAction → TagChange
  | .addConfidentiality => .addSecrecy
  | .removeConfidentiality => .removeSecrecy
  | .addIntegrity => .addIntegrity

namespace Compile

structure Progress where
  ruleSet : RuleSet
  counts : OrdMap String Nat := .empty

/-- The premise for each precondition, in order. -/
def premises (roles : List (String × Nat)) (r : RuleSet) :
    List Precondition → Except Fault (List Premise × RuleSet)
  | [] => .ok ([], r)
  | p :: rest =>
      let (tag, r) := r.intern p.requiredTag
      match roles.lookup p.argument with
      | none => .error (.missingPrecondition p.argument)
      | some position => do
          let (premises, r) ← premises roles r rest
          return (⟨position, tag⟩ :: premises, r)

/-- Copies the transformed value, then applies the rule. -/
def transformRules (rule : PolicyRule) (o : Operation) (r : RuleSet) :
    Except Fault (OutputRules × RuleSet) := do
  let roles ← o.roles
  let (premises, r) ← premises roles r rule.preconditions
  let (tag, r) := r.intern rule.tag
  return (.ofList [(0, [⟨.copy 0, []⟩, ⟨.modify rule.action.change tag, premises⟩])], r)

/-- Merges the integrity of the direct inputs. -/
def mergeRules (kind : MergeKind) (o : Operation) : Except Fault OutputRules := do
  return .ofList [(0, [⟨.merge kind (List.range (← o.controlStart)), []⟩])]

/-- The merge that a transform with a built-in rule reads. -/
def mergeOperand (m : Module) (o : Operation) : Except Fault Operation := do
  if o.inputs.length ≠ 1 then throw .internalRuleInputs
  match ← o.transformedValue with
  | .result id _ =>
      match m.findOperation? id with
      | some operand =>
          if operand.operator = Sql.merge then return operand else throw .internalRuleOperand
      | none => throw .internalRuleOperand
  | _ => throw .internalRuleArgument

def internal (m : Module) (o : Operation) (name action : String) (r : RuleSet) :
    Except Fault RuleSet := do
  let operand ← mergeOperand m o
  let kind := if name = Sql.unionRule then MergeKind.union else MergeKind.intersect
  let r ← r.mark (operand.id) action
  r.addRules action (← mergeRules kind operand)

def authored (rules : List PolicyRule) (o : Operation) (name action : String) (r : RuleSet) :
    Except Fault RuleSet := do
  match rules.find? (·.name = name) with
  | none => throw (.uncompiledRule name)
  | some rule =>
      let r ← r.mark o.id action
      let (outputs, r) ← transformRules rule o r
      r.addRules action outputs

def operation (rules : List PolicyRule) (m : Module) (p : Progress) (o : Operation) :
    Except Fault Progress :=
  if o.operator = Sql.tagTransform then do
    let name ← o.ruleName
    let count := (p.counts.find? name).getD 0
    let action := name ++ "_" ++ toString count
    let r ←
      if Sql.isInternalRule name then internal m o name action p.ruleSet
      else authored rules o name action p.ruleSet
    return ⟨r, p.counts.insert name (count + 1)⟩
  else .ok p

end Compile

/-- The inference rules for the tag transforms of a module. The seed tags are
numbered first. -/
def compile (rules : List PolicyRule) (m : Module) (seeds : List String) :
    Except Fault RuleSet := do
  let start ← RuleSet.ofSeeds seeds
  match firstRepeat? (rules.map (·.name)) with
  | some name => throw (.duplicateRule name)
  | none =>
      let done ← m.operations.foldlM (Compile.operation rules m) { ruleSet := start }
      return done.ruleSet

end TagFlow
