import TagFlow.Policy.Sql
import TagFlow.Scenario.Scope

/-! # The program of a scenario

The operators and storages are registered first, then all blocks are declared, then the
operations are filled in. The first error ends the construction.
-/

namespace TagFlow

structure Program where
  workspace : Workspace
  root : Module

namespace Scenario

namespace Build

/-! ## Operators and storages -/

/-- The type that a name stands for. -/
def dataType : Option String → DataType
  | none => .primitive
  | some name =>
      if name = "primitive" then .primitive
      else
        match Reference.dropFront? "entity<".toList name.toList with
        | none => .entity name
        | some rest =>
            if rest.getLast? = some '>' then .entity (.ofList rest.dropLast) else .entity name

def addOperator (w : Workspace) (o : OperatorDecl) : Except Failure Workspace :=
  if w.hasOperator o.name then .error (.error (.duplicateName .operator o.name))
  else orFault (w.addOperator { name := o.name, outputs := o.outputs })

def addStorage (w : Workspace) (s : StorageDecl) : Except Failure Workspace :=
  if (w.findStorage? s.name).isSome then .error (.error (.duplicateName .storage s.name))
  else do return (← orFault (w.addStorage s.name (dataType s.type))).2

/-- The workspace before any block is there. -/
def workspace (s : Scenario) : Except Failure Workspace := do
  let w ← s.operators.foldlM addOperator {}
  s.storages.foldlM addStorage w.supplySql

/-! ## Declared blocks -/

/-- A declared block, with the ids that its operations will have. -/
structure Draft where
  block : Block
  ids : List OperationId

def addInput (owner : String) (s : Block × OrdMap String Value) (p : SlotDecl) :
    Except Failure (Block × OrdMap String Value) :=
  if s.2.contains p.name then
    .error (.error (.duplicateName .blockInput (owner ++ "." ++ p.name)))
  else do
    let (value, b) ← orFault (s.1.addInput p.name (dataType p.type))
    return (b, s.2.insert p.name value)

def addOutput (owner : String) (b : Block) (p : SlotDecl) : Except Failure Block :=
  if (b.outputs.find? p.name).isSome then
    .error (.error (.duplicateName .blockOutput (owner ++ "." ++ p.name)))
  else orFault (b.addOutput p.name (dataType p.type))

def declareBlock (s : Scope) (b : BlockDecl) : Except Failure (Draft × Scope) :=
  if s.arguments.contains b.name then .error (.error (.duplicateName .block b.name))
  else do
    let (block, workspace) := s.workspace.newBlock
    let (block, inputs) ← b.inputs.foldlM (addInput b.name) (block, .empty)
    let block ← b.outputs.foldlM (addOutput b.name) block
    let arguments := s.arguments.insert b.name inputs
    let (ids, s) ← orError ({ s with workspace, arguments }.declareOperations b.operations)
    return (⟨block, ids⟩, s)

def declareBlocks (s : Scope) : List BlockDecl → Except Failure (List Draft × Scope)
  | [] => .ok ([], s)
  | b :: rest => do
      let (draft, s) ← declareBlock s b
      let (drafts, s) ← declareBlocks s rest
      return (draft :: drafts, s)

/-! ## Operations -/

def toAttribute (label name : String) : Literal → Except Error Attribute
  | .integer number => .ok (.integer number)
  | .float number => .ok (.double number)
  | .text value => .ok (.text value)
  | .unsupported kind => .error (.badAttribute label name kind)

def toInput (s : Scope) (owner : String) : InputDecl → Except Error Value
  | .constant number => .ok (.constant number)
  | .reference text => s.resolve (some owner) (.block owner) text

/-- How errors name an operation: by its first result, or by its position. -/
def label (o : OperationDecl) (owner : String) (index : Nat) : String :=
  match o.results with
  | name :: _ => name
  | [] => s!"{owner}#{index}"

def toOperation (s : Scope) (owner : String) (index : Nat) (o : OperationDecl)
    (id : OperationId) : Except Error Operation :=
  let label := label o owner index
  match s.workspace.operator? o.operator with
  | none => .error (.unknownOperator label o.operator)
  | some operator =>
      if operator.outputs < o.results.length then
        .error (.tooManyResults label o.operator o.results.length operator.outputs)
      else do
        let attributes ← o.attributes.entries.mapM fun e => do
          return (e.1, ← toAttribute label e.1 e.2)
        let inputs ← o.inputs.mapM (toInput s owner)
        return ⟨id, none, operator.toSignature, .ofList attributes, inputs, none⟩

/-- Appends operations to a block, counting from a position. -/
def fillOperations (s : Scope) (owner : String) (index : Nat) (b : Block) :
    List (OperationDecl × OperationId) → Except Error Block
  | [] => .ok b
  | (o, id) :: rest => do
      let operation ← toOperation s owner index o id
      fillOperations s owner (index + 1) (b.push operation) rest

def bindOutput (s : Scope) (d : BlockDecl) (b : Block) (binding : String × String) :
    Except Failure Block :=
  if d.outputs.any (·.name = binding.1) then do
    let value ← orError (s.resolve (some d.name) (.block d.name) binding.2)
    orFault (b.bind binding.1 value)
  else .error (.error (.unknownOutput d.name binding.1))

def fillBlock (s : Scope) (m : Module) (d : BlockDecl × Draft) : Except Failure Module := do
  let b ← orError
    (fillOperations s d.1.name 0 d.2.block (d.1.operations.zip d.2.ids))
  let b ← d.1.results.entries.foldlM (bindOutput s d.1) b
  orFault (m.push b)

/-! ## Storage inputs -/

def storageInputs (s : Scope) (d : StorageDecl) : Except Failure (List (StorageId × Value)) :=
  match s.workspace.findStorage? d.name with
  | none => .error (.fault .missingStorage)
  | some id => d.inputs.mapM fun text => do
      return (id, ← orError (s.resolve none (.storage d.name) text))

def addStorageInput (w : Workspace) (input : StorageId × Value) : Except Failure Workspace :=
  orFault (w.addStorageInput input.1 input.2)

end Build

/-- The program that the scenario describes. -/
def program (s : Scenario) : Except Failure Program := do
  let (drafts, scope) ← Build.declareBlocks { workspace := ← Build.workspace s } s.blocks
  let (root, workspace) := scope.workspace.newModule
  let scope := { scope with workspace }
  let root ← (s.blocks.zip drafts).foldlM (Build.fillBlock scope) root
  let inputs ← s.storages.mapM (Build.storageInputs scope)
  return ⟨← inputs.flatten.foldlM Build.addStorageInput workspace, root⟩

end Scenario

end TagFlow
