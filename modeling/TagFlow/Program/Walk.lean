import TagFlow.Program.Workspace

/-! # Walks over a program

A visitor sees every part of a tree: it enters a part, then the parts inside it are
visited in order and their results combined, then it leaves the part. It may keep a
state of its own throughout.
-/

namespace TagFlow

inductive Part where
  | module (module : Module)
  | block (block : Block)
  | operation (operation : Operation)
  | storage (storage : Storage)

def Part.kind : Part → String
  | module _ => "module"
  | block _ => "block"
  | operation _ => "operation"
  | storage _ => "storage"

/-- `combine` takes the result so far and the result of a part inside; unless it is
given, parts inside do not count. -/
structure Visitor (σ ρ : Type) where
  enter : Part → StateM σ ρ
  combine : ρ → ρ → ρ := fun result _ => result
  leave : Part → ρ → StateM σ ρ := fun _ result => pure result

namespace Visitor

variable {σ ρ : Type}

mutual

def module (v : Visitor σ ρ) : Module → StateM σ ρ
  | ⟨id, blocks⟩ => do
      let start ← v.enter (.module ⟨id, blocks⟩)
      let result ← v.blockList start blocks
      v.leave (.module ⟨id, blocks⟩) result

def block (v : Visitor σ ρ) : Block → StateM σ ρ
  | ⟨id, parent, inputs, outputs, results, operations⟩ => do
      let start ← v.enter (.block ⟨id, parent, inputs, outputs, results, operations⟩)
      let result ← v.operationList start operations
      v.leave (.block ⟨id, parent, inputs, outputs, results, operations⟩) result

def operation (v : Visitor σ ρ) : Operation → StateM σ ρ
  | ⟨id, parent, signature, attributes, inputs, none⟩ => do
      let start ← v.enter (.operation ⟨id, parent, signature, attributes, inputs, none⟩)
      v.leave (.operation ⟨id, parent, signature, attributes, inputs, none⟩) start
  | ⟨id, parent, signature, attributes, inputs, some body⟩ => do
      let start ← v.enter (.operation ⟨id, parent, signature, attributes, inputs, some body⟩)
      let inner ← v.module body
      v.leave (.operation ⟨id, parent, signature, attributes, inputs, some body⟩)
        (v.combine start inner)

def blockList (v : Visitor σ ρ) (result : ρ) : List Block → StateM σ ρ
  | [] => pure result
  | b :: rest => do
      let inner ← v.block b
      v.blockList (v.combine result inner) rest

def operationList (v : Visitor σ ρ) (result : ρ) : List Operation → StateM σ ρ
  | [] => pure result
  | o :: rest => do
      let inner ← v.operation o
      v.operationList (v.combine result inner) rest

end

def visit (v : Visitor σ ρ) : Part → StateM σ ρ
  | .module m => v.module m
  | .block b => v.block b
  | .operation o => v.operation o
  | .storage s => do
      let start ← v.enter (.storage s)
      v.leave (.storage s) start

end Visitor

end TagFlow
