import TagFlow.Program.Attribute
import TagFlow.Program.Value

/-! # Faults

A fault is a broken invariant: a program, a policy or a call that makes no sense.
It ends the computation. Each kind of fault is a constructor, and its wording is in
`Fault.message`.
-/

namespace TagFlow

/-- The part of a label that was asked for. -/
inductive TagKind where
  | secrecy
  | integrity
  deriving DecidableEq

def TagKind.render : TagKind → String
  | secrecy => "secrecy"
  | integrity => "integrity"

inductive Fault where
  -- building programs
  | duplicateDeclaration (name : String)
  | duplicateOperator (name : String)
  | duplicateStorage (name : String)
  | missingStorage
  | unregisteredOperator (name : String)
  | missingBlockInput (name : String)
  | missingBlockOutput (name : String)
  | repeatedBlock (block : BlockId) (owner : ModuleId)
  | missingBlock
  | missingOperation
  | inputOutOfBounds (index : Nat) (operator : String) (inputs : Nat)
  | outputOutOfBounds (index : Nat) (operator : String) (outputs : Nat)
  | programNotBuilt
  -- the dataflow graph and the worklist
  | missingNode (node : Node)
  | unexpectedEdge
  | resultCount (results : Nat) (operator : String) (outputs : Nat)
  -- labels and inference rules
  | unknownLabel (kind : TagKind)
  | duplicateSeedTag (name : String)
  | unknownTag (tag : Nat)
  | alreadyAction (operation : OperationId)
  | duplicateAction (action : String)
  | missingAction (action : String)
  | ruleOutputOutOfBounds (index : Nat) (action operator : String) (outputs : Nat)
  | premiseOutOfBounds (index inputs : Nat)
  | copyOutOfBounds (index inputs : Nat)
  | mergeOutOfBounds (index inputs : Nat)
  -- operations of the SQL front end
  | literalWithoutText
  | emptyMerge
  | mergeWithoutStart (operation : OperationId)
  | mergeStartOutOfBounds (start : Int) (inputs : Nat)
  | duplicatePrecondition (name : String)
  | transformWithoutRule (operation : OperationId)
  | preconditionNotInteger (name : String)
  | preconditionOutOfBounds (index : Int) (name : String)
  -- policy rules
  | duplicateRule (name : String)
  | missingRule (name : String)
  | uncompiledRule (name : String)
  | missingPrecondition (argument : String)
  | internalRuleInputs
  | internalRuleArgument
  | internalRuleOperand
  -- privacy budgets
  | wrongPolicy (factName : String)
  | budgetNotInteger (name : String) (given : Attribute)
  | negativeBudget (name : String) (number : Int)
  | mechanismWithoutBudget (operation : OperationId)
  | mechanismWithoutInput (operation : OperationId)
  deriving DecidableEq

def Fault.message : Fault → String
  | duplicateDeclaration name => s!"Adding a duplicate declaration for `{name}`."
  | duplicateOperator name => s!"Cannot register duplicate operator with name '{name}'."
  | duplicateStorage name => s!"Cannot register duplicate storage with name '{name}'."
  | missingStorage => "Storage should exist"
  | unregisteredOperator name => s!"Operator `{name}` is not registered"
  | missingBlockInput name => s!"Block has no input named `{name}`"
  | missingBlockOutput name => s!"Block has no output named `{name}`"
  | repeatedBlock block owner => s!"Block {block} is already part of module {owner}"
  | missingBlock => "Block should exist"
  | missingOperation => "Operation should exist"
  | inputOutOfBounds index operator inputs =>
      s!"GetInputValue({index}) fails because index is out of bounds for operation " ++
        s!"`{operator}` with {inputs} inputs"
  | outputOutOfBounds index operator outputs =>
      s!"GetOutputValue({index}) fails because index is out of bounds for operation " ++
        s!"`{operator}` with {outputs} outputs"
  | programNotBuilt => "build_ir should be called first"
  | missingNode node => "Node " ++ node.describe ++ " is not present in the ModuleGraph"
  | unexpectedEdge => "ModuleGraph has an unexpected edge."
  | resultCount results operator outputs =>
      s!"Semantics produced {results} results for operation `{operator}` with {outputs} outputs"
  | unknownLabel kind => "Cannot read " ++ kind.render ++ " tags of Bottom"
  | duplicateSeedTag name => s!"Duplicate seed tag name '{name}'"
  | unknownTag tag => s!"Unknown tag id {tag}"
  | alreadyAction operation => s!"Operation {operation} is already marked as an action"
  | duplicateAction action => s!"Duplicate rules for action '{action}'"
  | missingAction action => s!"No inference rules for action '{action}'"
  | ruleOutputOutOfBounds index action operator outputs =>
      s!"Output index {index} in rules of action '{action}' is out of bounds for operation " ++
        s!"`{operator}` with {outputs} outputs"
  | premiseOutOfBounds index inputs =>
      s!"Premise index {index} is out of bounds for {inputs} inputs"
  | copyOutOfBounds index inputs =>
      s!"Input index {index} in CopyInput is out of bounds for {inputs} inputs"
  | mergeOutOfBounds index inputs =>
      s!"Index {index} in MergeIntegrityTags is out of bounds for {inputs} inputs"
  | literalWithoutText => "sql.literal should carry a string `literal_string` attribute"
  | emptyMerge => "Both direct inputs and control inputs are empty."
  | mergeWithoutStart operation =>
      s!"sql.merge {operation} has no integer `control_input_start_index` attribute"
  | mergeStartOutOfBounds start inputs =>
      s!"Invalid control input start index {start} for sql.merge with {inputs} inputs"
  | duplicatePrecondition name => s!"Duplicate precondition name '{name}'."
  | transformWithoutRule operation =>
      s!"sql.tag_transform {operation} has no string `rule_name` attribute"
  | preconditionNotInteger name =>
      s!"Precondition `{name}` of sql.tag_transform is not an integer"
  | preconditionOutOfBounds index name =>
      s!"Invalid index {index} for precondition `{name}` in sql.tag_transform"
  | duplicateRule name => s!"Duplicate entry for rule name '{name}'"
  | missingRule name => s!"Cannot find rule {name}"
  | uncompiledRule name => s!"No sql policy rule found for '{name}'."
  | missingPrecondition argument => s!"Unable to find input index for '{argument}'."
  | internalRuleInputs => "Special tag transform op has more than one input."
  | internalRuleArgument =>
      "Argument of a special tag transform op is not an operation result."
  | internalRuleOperand => "Special tag transform op is not referring to a MergeOp"
  | wrongPolicy factName =>
      s!"DpBudgetChecker requires a DP parameter policy, got `{factName}`"
  | budgetNotInteger name given =>
      s!"Attribute `{name}` of privacy_mechanism must be an integer, got " ++ given.render
  | negativeBudget name number =>
      s!"Attribute `{name}` of privacy_mechanism must not be negative, got {number}"
  | mechanismWithoutBudget operation =>
      s!"privacy_mechanism {operation} has no `epsilon` attribute"
  | mechanismWithoutInput operation => s!"privacy_mechanism {operation} has no input"

end TagFlow
