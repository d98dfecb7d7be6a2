import TagFlow.Number.Double
import TagFlow.Policy.Basic
import TagFlow.Policy.Rule
import TagFlow.Scenario.Error

/-! # Scenarios

A scenario describes a program and the policy that it has to comply with. Values are
written as references: `%name` is a result of any operation, `arg:input` an input of the
block around it, `arg:block.input` an input of any block, `store:name` a storage, `any`
stands for any value, and a whole number for itself.
-/

namespace TagFlow

namespace Scenario

structure OperatorDecl where
  name : String
  outputs : Nat := 1
  deriving DecidableEq

structure StorageDecl where
  name : String
  type : Option String := none
  inputs : List String := []
  deriving DecidableEq

/-- An input or output of a block. -/
structure SlotDecl where
  name : String
  type : Option String := none
  deriving DecidableEq

inductive Literal where
  | integer (number : Int64)
  | float (number : Double)
  | text (value : String)
  | unsupported (kind : UnsupportedKind)
  deriving DecidableEq

inductive InputDecl where
  | constant (number : Int64)
  | reference (text : String)
  deriving DecidableEq

structure OperationDecl where
  results : List String := []
  operator : String
  attributes : OrdMap String Literal := .empty
  inputs : List InputDecl := []
  deriving DecidableEq

/-- `results` binds outputs to references. -/
structure BlockDecl where
  name : String
  inputs : List SlotDecl := []
  outputs : List SlotDecl := []
  results : OrdMap String String := .empty
  operations : List OperationDecl := []
  deriving DecidableEq

inductive PolicyKind where
  | sql
  | catchall
  | privacy
  deriving DecidableEq

namespace PolicyKind

def all : List PolicyKind := [sql, catchall, privacy]

def render : PolicyKind → String
  | sql => "sql"
  | catchall => "catchall"
  | privacy => "dp"

end PolicyKind

inductive Checker where
  | rescan
  | egress
  | budget
  deriving DecidableEq

namespace Checker

def all : List Checker := [rescan, egress, budget]

def render : Checker → String
  | rescan => "chaotic"
  | egress => "abstract_interpretation"
  | budget => "dp_budget"

end Checker

structure PolicyDecl where
  kind : PolicyKind
  checker : Checker
  facts : String := ""
  rules : List PolicyRule := []
  seedTags : List String := []
  egress : List String := ["sql.sql_output"]
  epsilon : Option UInt64 := none
  delta : Option UInt64 := none
  deriving DecidableEq

end Scenario

structure Scenario where
  operators : List Scenario.OperatorDecl := []
  storages : List Scenario.StorageDecl := []
  blocks : List Scenario.BlockDecl := []
  policy : Scenario.PolicyDecl
  deriving DecidableEq

namespace Scenario.PolicyDecl

/-- The first thing that is wrong with a policy. -/
def flaw? (p : PolicyDecl) : Option Error :=
  if p.kind = .privacy ∧ p.checker ≠ .budget then
    some (.invalidPolicy .privacyNeedsBudgetChecker)
  else if p.kind ≠ .privacy ∧ p.checker = .budget then
    some (.invalidPolicy .budgetCheckerNeedsPrivacy)
  else if p.kind = .privacy ∧ p.epsilon = none then
    some (.invalidPolicy .missingEpsilon)
  else
    match firstRepeat? (p.rules.map PolicyRule.name) with
    | some name => some (.duplicateName .policyRule name)
    | none => (firstRepeat? p.seedTags).map (.duplicateName .seedTag)

def validate (p : PolicyDecl) : Except Error Unit :=
  match p.flaw? with
  | some e => .error e
  | none => .ok ()

def policy (p : PolicyDecl) : Except Error Policy := do
  p.validate
  return match p.kind with
    | .sql => .sql p.facts
    | .catchall => .catchall p.facts
    | .privacy => .privacy ⟨p.epsilon.getD 0, p.delta.getD 0⟩

end Scenario.PolicyDecl

end TagFlow
