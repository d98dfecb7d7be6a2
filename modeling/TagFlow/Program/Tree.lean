import TagFlow.Program.Decl

/-! # Modules, blocks and operations

A module holds blocks, a block holds operations in order, and an operation may
hold the module that implements it. An operation's outputs are not stored: output
`i` is the value `result id i`, for `i` below the number its operator declares.
-/

namespace TagFlow

/-- What an operation knows of its operator. -/
structure Signature where
  name : String
  outputs : Nat := 1
  deriving DecidableEq

mutual

structure Operation where
  id : OperationId
  parent : Option BlockId
  signature : Signature
  attributes : Attributes
  inputs : List Value
  body : Option Module

structure Block where
  id : BlockId
  parent : Option ModuleId
  inputs : Decls
  outputs : Decls
  results : OrdMap String Value
  operations : List Operation

structure Module where
  id : ModuleId
  blocks : List Block

end

namespace Operation

def operator (o : Operation) : String := o.signature.name

def outputCount (o : Operation) : Nat := o.signature.outputs

def outputs (o : Operation) : List Value :=
  (List.range o.outputCount).map (Value.result o.id)

def find? (o : Operation) (name : String) : Option Attribute := o.attributes.find? name

def input (o : Operation) (index : Nat) : Except Fault Value :=
  match o.inputs[index]? with
  | some value => .ok value
  | none => .error (.inputOutOfBounds index o.operator o.inputs.length)

def output (o : Operation) (index : Nat) : Except Fault Value :=
  if index < o.outputCount then .ok (.result o.id index)
  else .error (.outputOutOfBounds index o.operator o.outputCount)

end Operation

namespace Block

def empty (id : BlockId) : Block :=
  ⟨id, none, .empty, .empty, .empty, []⟩

/-- Declares an input and answers the value that stands for it. -/
def addInput (b : Block) (name : String) (type : DataType) : Except Fault (Value × Block) := do
  let (index, inputs) ← b.inputs.add name type
  return (.argument b.id index, { b with inputs })

def addOutput (b : Block) (name : String) (type : DataType) : Except Fault Block := do
  let (_, outputs) ← b.outputs.add name type
  return { b with outputs }

/-- Binds a declared output; a later binding replaces an earlier one. -/
def bind (b : Block) (name : String) (value : Value) : Except Fault Block :=
  if (b.outputs.find? name).isSome then .ok { b with results := b.results.insert name value }
  else .error (.missingBlockOutput name)

/-- Takes an operation into the block as its last one. -/
def push (b : Block) (o : Operation) : Block :=
  { b with operations := b.operations ++ [{ o with parent := some b.id }] }

def argument (b : Block) (name : String) : Except Fault Value :=
  match b.inputs.indexOf? name with
  | some index => .ok (.argument b.id index)
  | none => .error (.missingBlockInput name)

end Block

namespace Module

def empty (id : ModuleId) : Module := ⟨id, []⟩

/-- The operations of the module's own blocks, without those of implementations. -/
def operations (m : Module) : List Operation := m.blocks.flatMap Block.operations

/-- The same operations, each with the position of its block and its own there. -/
def places (m : Module) : List (Operation × Nat × Nat) :=
  m.blocks.zipIdx.flatMap fun b => b.1.operations.zipIdx.map fun o => (o.1, b.2, o.2)

def blockIndex (m : Module) : OrdMap BlockId Nat :=
  .ofList (m.blocks.zipIdx.map fun b => (b.1.id, b.2))

/-- Of several operations with one id the last counts. -/
def operationIndex (m : Module) : OrdMap OperationId (Nat × Nat) :=
  .ofList (m.places.map fun p => (p.1.id, p.2))

def findBlock? (m : Module) (id : BlockId) : Option Block := do
  m.blocks[← m.blockIndex.find? id]?

def operationAt? (m : Module) (place : Nat × Nat) : Option Operation := do
  (← m.blocks[place.1]?).operations[place.2]?

def findOperation? (m : Module) (id : OperationId) : Option Operation := do
  m.operationAt? (← m.operationIndex.find? id)

def block (m : Module) (id : BlockId) : Except Fault Block :=
  match m.findBlock? id with
  | some b => .ok b
  | none => .error .missingBlock

def operation (m : Module) (id : OperationId) : Except Fault Operation :=
  match m.findOperation? id with
  | some o => .ok o
  | none => .error .missingOperation

/-- Takes a block into the module as its last one. -/
def push (m : Module) (b : Block) : Except Fault Module :=
  if m.blockIndex.contains b.id then .error (.repeatedBlock b.id m.id)
  else .ok { m with blocks := m.blocks ++ [{ b with parent := some m.id }] }

end Module

/-! ## All operations of a tree -/

mutual

/-- Every operation, an operation before those of its implementation, and otherwise
in declaration order. -/
def Module.occurrences : Module → List Operation
  | ⟨_, blocks⟩ => occurrencesInBlocks blocks

def occurrencesInBlocks : List Block → List Operation
  | [] => []
  | ⟨_, _, _, _, _, operations⟩ :: rest =>
      occurrencesInOperations operations ++ occurrencesInBlocks rest

def occurrencesInOperations : List Operation → List Operation
  | [] => []
  | ⟨id, parent, signature, attributes, inputs, none⟩ :: rest =>
      ⟨id, parent, signature, attributes, inputs, none⟩ :: occurrencesInOperations rest
  | ⟨id, parent, signature, attributes, inputs, some body⟩ :: rest =>
      ⟨id, parent, signature, attributes, inputs, some body⟩ ::
        (body.occurrences ++ occurrencesInOperations rest)

end

end TagFlow
