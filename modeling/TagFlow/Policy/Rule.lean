import TagFlow.Label.Basic

/-! # Policy rules

A rule as a policy author writes it: the tag transform that names the rule changes one
tag, provided that each of its preconditions holds. A rule book numbers the tags of a
list of rules in the order of first use.
-/

namespace TagFlow

inductive RuleAction where
  | addConfidentiality
  | removeConfidentiality
  | addIntegrity
  deriving DecidableEq

namespace RuleAction

def all : List RuleAction := [addConfidentiality, removeConfidentiality, addIntegrity]

def render : RuleAction → String
  | addConfidentiality => "add_confidentiality"
  | removeConfidentiality => "remove_confidentiality"
  | addIntegrity => "add_integrity"

end RuleAction

/-- The input that plays the role of `argument` carries the integrity tag. -/
structure Precondition where
  argument : String
  requiredTag : String
  deriving DecidableEq

structure PolicyRule where
  name : String
  action : RuleAction
  tag : String
  preconditions : List Precondition := []
  deriving DecidableEq

namespace RuleBook

/-- A rule with numbered tags. -/
structure Entry where
  name : String
  action : RuleAction
  tag : Tag
  required : OrdMap String TagSet

end RuleBook

structure RuleBook where
  entries : OrdMap String RuleBook.Entry := .empty
  tagNames : List String := []

namespace RuleBook

def rule? (b : RuleBook) (name : String) : Option Entry := b.entries.find? name

def tag? (b : RuleBook) (name : String) : Option Tag := b.tagNames.findIdx? (· = name)

def intern (b : RuleBook) (name : String) : Tag × RuleBook :=
  match b.tag? name with
  | some tag => (tag, b)
  | none => (b.tagNames.length, { b with tagNames := b.tagNames ++ [name] })

/-- The tags that each argument has to carry. -/
def internRequired (b : RuleBook) (required : OrdMap String TagSet) :
    List Precondition → OrdMap String TagSet × RuleBook
  | [] => (required, b)
  | p :: rest =>
      let (tag, b) := b.intern p.requiredTag
      let tags := (required.find? p.argument).getD .empty
      internRequired b (required.insert p.argument (tags.insert tag)) rest

def add (b : RuleBook) (rule : PolicyRule) : Except Fault RuleBook :=
  if (b.rule? rule.name).isSome then .error (.duplicateRule rule.name)
  else
    let (required, b) := b.internRequired .empty rule.preconditions
    let (tag, b) := b.intern rule.tag
    .ok { b with entries := b.entries.insert rule.name ⟨rule.name, rule.action, tag, required⟩ }

def ofRules (rules : List PolicyRule) : Except Fault RuleBook :=
  rules.foldlM add {}

end RuleBook

end TagFlow
