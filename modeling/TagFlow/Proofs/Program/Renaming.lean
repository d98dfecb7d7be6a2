import Mathlib.Logic.Embedding.Basic
import TagFlow.Program.Listing
import TagFlow.Proofs.Program.NameTables

/-! # Programs under other ids

The ids of modules, blocks and operations only tell these apart. Under other ids, given one to
one, a program has the same listing: what a name table is asked about changes, but not the order
of first questions, and so no number does.
-/

namespace TagFlow

/-- Other ids, given one to one to each kind of thing. -/
structure Renaming where
  module : ModuleId ↪ ModuleId
  block : BlockId ↪ BlockId
  operation : OperationId ↪ OperationId

/-! ## Renamed programs -/

def Value.rename (f : Renaming) : Value → Value
  | any => any
  | argument block index => argument (f.block block) index
  | result operation index => result (f.operation operation) index
  | stored storage => stored storage
  | constant number => constant number

theorem Value.rename_injective (f : Renaming) : Function.Injective (Value.rename f) := by
  intro v w h
  cases v <;> cases w <;> simp_all [Value.rename]

mutual

/-- The module under other ids: everywhere in it, parents and values included. -/
def Module.rename (f : Renaming) : Module → Module
  | ⟨id, blocks⟩ => ⟨f.module id, renameBlocks f blocks⟩

def Block.rename (f : Renaming) : Block → Block
  | ⟨id, parent, inputs, outputs, results, operations⟩ =>
      ⟨f.block id, parent.map f.module, inputs, outputs,
        .ofList (results.entries.map fun e => (e.1, e.2.rename f)), renameOperations f operations⟩

def Operation.rename (f : Renaming) : Operation → Operation
  | ⟨id, parent, signature, attributes, inputs, none⟩ =>
      ⟨f.operation id, parent.map f.block, signature, attributes, inputs.map (Value.rename f), none⟩
  | ⟨id, parent, signature, attributes, inputs, some body⟩ =>
      ⟨f.operation id, parent.map f.block, signature, attributes, inputs.map (Value.rename f),
        some (body.rename f)⟩

def renameBlocks (f : Renaming) : List Block → List Block
  | [] => []
  | b :: rest => b.rename f :: renameBlocks f rest

def renameOperations (f : Renaming) : List Operation → List Operation
  | [] => []
  | o :: rest => o.rename f :: renameOperations f rest

end

/-! ## Renamed questions -/

def Request.rename (f : Renaming) : Request → Request
  | module id => module (f.module id)
  | block id => block (f.block id)
  | value v => value (v.rename f)

namespace Names

def rename (f : Renaming) (names : Names) : Names :=
  ⟨names.modules.map f.module, names.blocks.map f.block, names.values.map (Value.rename f)⟩

theorem ask_rename (f : Renaming) (names : Names) (r : Request) :
    (names.rename f).ask (r.rename f) = ((names.ask r).1, (names.ask r).2.rename f) := by
  cases r with
  | module id => simp [Request.rename, ask, Names.module, rename, number_map f.module.injective]
  | block id => simp [Request.rename, ask, Names.block, rename, number_map f.block.injective]
  | value v =>
      simp [Request.rename, ask, Names.value, rename, number_map (Value.rename_injective f)]

variable {α β : Type}

/-- With the renamed table the second computation has the result that the first has with the
table, and leaves what the first leaves, renamed. -/
def Parallel (f : Renaming) (g g' : Names → α × Names) : Prop :=
  ∀ names, g' (names.rename f) = ((g names).1, (g names).2.rename f)

namespace Parallel

variable {f : Renaming}

theorem pure (a : α) : Parallel f (fun names => (a, names)) (fun names => (a, names)) :=
  fun _ => rfl

theorem ask (r : Request) : Parallel f (·.ask r) (·.ask (r.rename f)) :=
  fun names => ask_rename f names r

theorem bind {g g' : Names → α × Names} {h h' : α → Names → β × Names} (hg : Parallel f g g')
    (hh : ∀ a, Parallel f (h a) (h' a)) :
    Parallel f (fun names => h (g names).1 (g names).2)
      (fun names => h' (g' names).1 (g' names).2) := by
  intro names
  show h' (g' (names.rename f)).1 (g' (names.rename f)).2 = _
  rw [hg names]
  exact hh (g names).1 (g names).2

theorem map {g g' : Names → α × Names} (hg : Parallel f g g') (h : α → β) :
    Parallel f (fun names => (h (g names).1, (g names).2))
      (fun names => (h (g' names).1, (g' names).2)) :=
  hg.bind fun a => .pure (h a)

/-- A new table is the same under all ids. -/
theorem fst_new {g g' : Names → α × Names} (hg : Parallel f g g') : (g' {}).1 = (g {}).1 := by
  have fresh : g' {} = ((g {}).1, (g {}).2.rename f) := hg {}
  rw [fresh]

end Parallel

end Names

open Names (Parallel)

/-! ## Listings -/

theorem Value.render_parallel (f : Renaming) (v : Value) :
    Parallel f (Value.render · v) (Value.render · (v.rename f)) := by
  cases v with
  | any => exact .pure _
  | constant number => exact .pure _
  | stored storage => exact .pure _
  | argument block index =>
      exact (Parallel.ask (.value (.argument block index))).map fun n => s!"%{n}"
  | result operation index =>
      exact (Parallel.ask (.value (.result operation index))).map fun n => s!"%{n}"

namespace Listing

theorem values_parallel (f : Renaming) (vs : List Value) :
    Parallel f (values · vs) (values · (vs.map (Value.rename f))) := by
  induction vs with
  | nil => exact .pure []
  | cons v rest ih => exact (v.render_parallel f).bind fun text => ih.map (text :: ·)

theorem head_parallel (f : Renaming) (id : OperationId) (operator : String)
    (attributes : Attributes) (inputs : List Value) :
    Parallel f (head · id operator attributes inputs)
      (head · (f.operation id) operator attributes (inputs.map (Value.rename f))) :=
  (values_parallel f inputs).bind fun texts =>
    ((Value.default id).render_parallel f).map (assigned operator attributes texts)

mutual

theorem module_parallel (f : Renaming) (depth : Nat) :
    (m : Module) → Parallel f (module depth · m) (module depth · (m.rename f))
  | ⟨id, blocks⟩ =>
      (Parallel.ask (.module id)).bind fun first =>
        (blockList_parallel f (depth + 1) blocks).bind fun body =>
          (Parallel.ask (.module id)).map (framed depth "module m" first body)

theorem block_parallel (f : Renaming) (depth : Nat) :
    (b : Block) → Parallel f (block depth · b) (block depth · (b.rename f))
  | ⟨id, _, _, _, _, operations⟩ =>
      (Parallel.ask (.block id)).bind fun first =>
        (operationList_parallel f (depth + 1) operations).bind fun body =>
          (Parallel.ask (.block id)).map (framed depth "block b" first body)

theorem operation_parallel (f : Renaming) (depth : Nat) :
    (o : Operation) → Parallel f (operation depth · o) (operation depth · (o.rename f))
  | ⟨id, _, signature, attributes, inputs, none⟩ =>
      (head_parallel f id signature.name attributes inputs).map (line depth)
  | ⟨id, _, signature, attributes, inputs, some implementation⟩ =>
      (head_parallel f id signature.name attributes inputs).bind fun text =>
        (module_parallel f (depth + 1) implementation).map (implemented depth text)

theorem blockList_parallel (f : Renaming) (depth : Nat) :
    (blocks : List Block) →
      Parallel f (blockList depth · blocks) (blockList depth · (renameBlocks f blocks))
  | [] => .pure ""
  | b :: rest =>
      (block_parallel f depth b).bind fun text =>
        (blockList_parallel f depth rest).map (text ++ ·)

theorem operationList_parallel (f : Renaming) (depth : Nat) :
    (operations : List Operation) →
      Parallel f (operationList depth · operations)
        (operationList depth · (renameOperations f operations))
  | [] => .pure ""
  | o :: rest =>
      (operation_parallel f depth o).bind fun text =>
        (operationList_parallel f depth rest).map (text ++ ·)

end

end Listing

/-- Under other ids, modules, blocks and operations have the same text, through a new table and
through any table under the same other ids. -/
theorem render_rename (f : Renaming) :
    (∀ m : Module, ((m.rename f).render {}).1 = (m.render {}).1) ∧
      (∀ b : Block, ((b.rename f).render {}).1 = (b.render {}).1) ∧
      (∀ o : Operation, ((o.rename f).render {}).1 = (o.render {}).1) ∧
      ∀ names : Names,
        (∀ m : Module, (m.rename f).render (names.rename f) =
          ((m.render names).1, (m.render names).2.rename f)) ∧
        (∀ b : Block, (b.rename f).render (names.rename f) =
          ((b.render names).1, (b.render names).2.rename f)) ∧
        ∀ o : Operation, (o.rename f).render (names.rename f) =
          ((o.render names).1, (o.render names).2.rename f) := by
  have modules := Listing.module_parallel f 0
  have blocks := Listing.block_parallel f 0
  have operations := Listing.operation_parallel f 0
  exact ⟨fun m => (modules m).fst_new, fun b => (blocks b).fst_new, fun o => (operations o).fst_new,
    fun names => ⟨fun m => modules m names, fun b => blocks b names, fun o => operations o names⟩⟩

end TagFlow
