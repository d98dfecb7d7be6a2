import TagFlow.Program.Tree

/-! # Workspaces

A workspace knows the operators and storages that programs may use and hands out
fresh ids. Building a program threads the workspace through the steps that take
ids from it.
-/

namespace TagFlow

/-- A named kind of operation; a composite one carries the block implementing it. -/
structure Operator extends Signature where
  implementation : Option Block := none

/-- The implementation does not count. -/
def Operator.same (a b : Operator) : Bool := a.toSignature = b.toSignature

/-- A named global cell, with the values written into it. -/
structure Storage where
  id : StorageId
  name : String
  type : DataType
  inputs : OrdSet Value

def Storage.render (s : Storage) : String := "store:" ++ s.name ++ ":" ++ s.type.render

/-- The id of a storage is its position. -/
structure Workspace where
  operators : OrdMap String Operator := .empty
  storages : List Storage := []
  nextModule : ModuleId := 0
  nextBlock : BlockId := 0
  nextOperation : OperationId := 0

namespace Workspace

def operator? (w : Workspace) (name : String) : Option Operator := w.operators.find? name

def hasOperator (w : Workspace) (name : String) : Bool := (w.operator? name).isSome

def addOperator (w : Workspace) (operator : Operator) : Except Fault Workspace :=
  if w.hasOperator operator.name then .error (.duplicateOperator operator.name)
  else .ok { w with operators := w.operators.insert operator.name operator }

/-- Adds the operators of a list that are not there yet, with one output each. -/
def supply (w : Workspace) (names : List String) : Workspace :=
  names.foldl
    (fun w name =>
      if w.hasOperator name then w
      else { w with operators := w.operators.insert name { name } })
    w

/-! ## Storages -/

def findStorage? (w : Workspace) (name : String) : Option StorageId :=
  w.storages.findIdx? (·.name = name)

def addStorage (w : Workspace) (name : String) (type : DataType) :
    Except Fault (StorageId × Workspace) :=
  if (w.findStorage? name).isSome then .error (.duplicateStorage name)
  else
    let id := w.storages.length
    .ok (id, { w with storages := w.storages ++ [⟨id, name, type, .empty⟩] })

def storage (w : Workspace) (id : StorageId) : Except Fault Storage :=
  match w.storages[id]? with
  | some s => .ok s
  | none => .error .missingStorage

/-- Records a value written into a storage. -/
def addStorageInput (w : Workspace) (id : StorageId) (value : Value) : Except Fault Workspace := do
  let s ← w.storage id
  return { w with storages := w.storages.set id { s with inputs := s.inputs.insert value } }

/-! ## Fresh ids -/

def freshModule (w : Workspace) : ModuleId × Workspace :=
  (w.nextModule, { w with nextModule := w.nextModule + 1 })

def freshBlock (w : Workspace) : BlockId × Workspace :=
  (w.nextBlock, { w with nextBlock := w.nextBlock + 1 })

def freshOperation (w : Workspace) : OperationId × Workspace :=
  (w.nextOperation, { w with nextOperation := w.nextOperation + 1 })

def newBlock (w : Workspace) : Block × Workspace :=
  let (id, w) := w.freshBlock
  (.empty id, w)

def newModule (w : Workspace) : Module × Workspace :=
  let (id, w) := w.freshModule
  (.empty id, w)

/-! ## Operations -/

def registered (w : Workspace) (name : String) : Except Fault Operator :=
  match w.operator? name with
  | some operator => .ok operator
  | none => .error (.unregisteredOperator name)

/-- Appends an operation with a fresh id to a block. -/
def emit (w : Workspace) (b : Block) (operator : String) (attributes : Attributes)
    (inputs : List Value) (body : Option Module := none) :
    Except Fault (OperationId × Block × Workspace) := do
  let known ← w.registered operator
  let (id, w) := w.freshOperation
  return (id, b.push ⟨id, none, known.toSignature, attributes, inputs, body⟩, w)

end Workspace

end TagFlow
