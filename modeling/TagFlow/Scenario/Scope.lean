import TagFlow.Program.Workspace
import TagFlow.Scenario.Basic
import TagFlow.Scenario.Reference

/-! # Scopes

A scope knows what references may name: the storages of its workspace, the inputs of every
block and the results of every operation. Everything is declared before any reference is
resolved, so a reference may name what comes later.
-/

namespace TagFlow

structure Scope where
  workspace : Workspace
  arguments : OrdMap String (OrdMap String Value) := .empty
  results : OrdMap String Value := .empty

namespace Scope

def block (s : Scope) (name : String) : Except Error (OrdMap String Value) :=
  match s.arguments.find? name with
  | some inputs => .ok inputs
  | none => .error (.unknownBlock name)

/-- The value of a reference, if what it names exists. Naming an unknown block is an error of
its own. -/
def find? (s : Scope) (inside : Option String) : Reference → Except Error (Option Value)
  | .any => .ok (some .any)
  | .result name => .ok (s.results.find? name)
  | .stored name => .ok ((s.workspace.findStorage? name).map .stored)
  | .argument (some name) input => do return (← s.block name).find? input
  | .argument none input =>
      match inside with
      | some name => do return (← s.block name).find? input
      | none => .ok none
  | .constant number => .ok (some (.constant number))

/-- The value that a text refers to, written inside a block or outside of all. -/
def resolve (s : Scope) (inside : Option String) (place : Place) (text : String) :
    Except Error Value :=
  match Reference.parse? text with
  | none => .error (.unknownReference text place)
  | some reference => do
      match ← s.find? inside reference with
      | some value => return value
      | none => throw (.unknownReference text place)

/-! ## Declaring -/

def declareResult (s : Scope) (name : String) (value : Value) : Except Error Scope :=
  if s.results.contains name then .error (.duplicateName .result name)
  else .ok { s with results := s.results.insert name value }

def declareResults (s : Scope) (id : OperationId) (index : Nat) : List String → Except Error Scope
  | [] => .ok s
  | name :: rest => do
      let s ← s.declareResult name (.result id index)
      s.declareResults id (index + 1) rest

/-- Gives each operation its id and names its results. -/
def declareOperations (s : Scope) :
    List Scenario.OperationDecl → Except Error (List OperationId × Scope)
  | [] => .ok ([], s)
  | o :: rest => do
      let (id, workspace) := s.workspace.freshOperation
      let s ← { s with workspace }.declareResults id 0 o.results
      let (ids, s) ← s.declareOperations rest
      return (id :: ids, s)

end Scope

end TagFlow
