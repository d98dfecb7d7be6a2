import TagFlow.Program.Fault

/-! # Errors in scenarios

An error is a mistake of whoever wrote the scenario, or a file that cannot be read. A
computation that may also meet a fault fails with either.
-/

namespace TagFlow

/-- The kinds of names that have to be distinct. -/
inductive NameKind where
  | operator
  | storage
  | block
  | blockInput
  | blockOutput
  | result
  | policyRule
  | seedTag
  deriving DecidableEq

def NameKind.render : NameKind → String
  | operator => "operator"
  | storage => "storage"
  | block => "block"
  | blockInput => "block input"
  | blockOutput => "block output"
  | result => "result"
  | policyRule => "policy rule"
  | seedTag => "seed tag"

/-- Where a reference is written. -/
inductive Place where
  | block (name : String)
  | storage (name : String)
  deriving DecidableEq

def Place.render : Place → String
  | block name => s!"block `{name}`"
  | storage name => s!"storage `{name}`"

/-- Kinds of constants that cannot be attributes. -/
inductive UnsupportedKind where
  | boolean
  | datetime
  | array
  | table
  deriving DecidableEq

def UnsupportedKind.render : UnsupportedKind → String
  | boolean => "boolean"
  | datetime => "datetime"
  | array => "array"
  | table => "table"

inductive PolicyFlaw where
  | privacyNeedsBudgetChecker
  | budgetCheckerNeedsPrivacy
  | missingEpsilon
  deriving DecidableEq

def PolicyFlaw.render : PolicyFlaw → String
  | privacyNeedsBudgetChecker => "a `dp` policy is only checked by the `dp_budget` checker"
  | budgetCheckerNeedsPrivacy => "the `dp_budget` checker needs a `dp` policy"
  | missingEpsilon => "a `dp` policy needs an `epsilon` budget"

inductive Error where
  | unreadable (path reason : String)
  | undecodable
  | unknownOperator (operation operator : String)
  | unknownReference (reference : String) (place : Place)
  | unknownBlock (name : String)
  | unknownOutput (block name : String)
  | badAttribute (operation name : String) (kind : UnsupportedKind)
  | duplicateName (kind : NameKind) (name : String)
  | tooManyResults (operation operator : String) (results outputs : Nat)
  | invalidPolicy (flaw : PolicyFlaw)
  deriving DecidableEq

def Error.missingFile (path : String) : Error :=
  .unreadable path "No such file or directory (os error 2)"

def Error.message : Error → String
  | unreadable path reason => s!"Cannot read scenario {path}: {reason}"
  | undecodable => "Cannot decode the scenario"
  | unknownOperator operation operator =>
      s!"Operation `{operation}` uses unknown operator `{operator}`"
  | unknownReference reference place =>
      s!"Unknown value reference `{reference}` in " ++ place.render
  | unknownBlock name => s!"Unknown block `{name}`"
  | unknownOutput block name => s!"Block `{block}` has no output named `{name}`"
  | badAttribute operation name kind =>
      s!"Attribute `{name}` of operation `{operation}` has an unsupported " ++ kind.render ++
        " value"
  | duplicateName kind name => "Duplicate " ++ kind.render ++ s!" `{name}`"
  | tooManyResults operation operator results outputs =>
      s!"Operation `{operation}` names {results} results but `{operator}` has {outputs} outputs"
  | invalidPolicy flaw => "Invalid policy: " ++ flaw.render

inductive Failure where
  | error (error : Error)
  | fault (fault : Fault)
  deriving DecidableEq

/-- Lets a computation that may meet a fault take part in one that may also fail by an
error. -/
def orFault {α : Type} (x : Except Fault α) : Except Failure α := x.mapError .fault

def orError {α : Type} (x : Except Error α) : Except Failure α := x.mapError .error

end TagFlow
