import TagFlow.Label.Basic

/-! # Inference rules

An operation may implement a named action. The rules of an action compute the label
of each output in steps: a step copies an input, changes a tag or merges the integrity
of inputs, and applies only when its premises hold. Tags are numbered in the order in
which their names are first used.
-/

namespace TagFlow

inductive TagChange where
  | addSecrecy
  | removeSecrecy
  | addIntegrity
  | removeIntegrity
  deriving DecidableEq

inductive MergeKind where
  | union
  | intersect
  deriving DecidableEq

inductive Conclusion where
  | copy (input : Nat)
  | modify (change : TagChange) (tag : Tag)
  | merge (kind : MergeKind) (inputs : List Nat)
  deriving DecidableEq

/-- The input at a position carries an integrity tag. -/
structure Premise where
  input : Nat
  tag : Tag
  deriving DecidableEq

structure InferenceRule where
  conclusion : Conclusion
  premises : List Premise := []
  deriving DecidableEq

def InferenceRule.changedTag? (rule : InferenceRule) : Option Tag :=
  match rule.conclusion with
  | .modify _ tag => some tag
  | _ => none

/-- The steps for each output, by position. -/
abbrev OutputRules := OrdMap Nat (List InferenceRule)

structure RuleSet where
  tagNames : List String := []
  actions : OrdMap OperationId String := .empty
  rules : OrdMap String OutputRules := .empty

namespace RuleSet

def tag? (r : RuleSet) (name : String) : Option Tag := r.tagNames.findIdx? (· = name)

def tagName (r : RuleSet) (tag : Tag) : Except Fault String :=
  match r.tagNames[tag]? with
  | some name => .ok name
  | none => .error (.unknownTag tag)

/-- The tag of a name, which is new if the name is. -/
def intern (r : RuleSet) (name : String) : Tag × RuleSet :=
  match r.tag? name with
  | some tag => (tag, r)
  | none => (r.tagNames.length, { r with tagNames := r.tagNames ++ [name] })

def addSeed (r : RuleSet) (name : String) : Except Fault RuleSet :=
  if (r.tag? name).isSome then .error (.duplicateSeedTag name)
  else .ok (r.intern name).2

/-- No rules yet; the given tags come first, in the given order. -/
def ofSeeds (names : List String) : Except Fault RuleSet :=
  names.foldlM addSeed {}

/-- Lets an operation implement an action. -/
def mark (r : RuleSet) (id : OperationId) (action : String) : Except Fault RuleSet :=
  if r.actions.contains id then .error (.alreadyAction id)
  else .ok { r with actions := r.actions.insert id action }

def addRules (r : RuleSet) (action : String) (outputs : OutputRules) : Except Fault RuleSet :=
  if r.rules.contains action then .error (.duplicateAction action)
  else .ok { r with rules := r.rules.insert action outputs }

def rulesFor? (r : RuleSet) (id : OperationId) : Option OutputRules := do
  r.rules.find? (← r.actions.find? id)

/-- The tags that some step adds or removes. -/
def changedTags (r : RuleSet) : List Tag :=
  r.rules.entries.flatMap fun (_, outputs) =>
    outputs.entries.flatMap fun (_, steps) => steps.filterMap InferenceRule.changedTag?

end RuleSet

end TagFlow
