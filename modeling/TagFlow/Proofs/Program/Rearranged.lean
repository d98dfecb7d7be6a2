import Mathlib.Data.List.Perm.Basic
import TagFlow.Program.Tree

/-! # Modules in another order

A module is rearranged by putting its blocks into another order, and the operations within
each block, at every level of implementations. The same operations occur in it, apart from
the order inside what implements them.
-/

namespace TagFlow

/-- The operation without what implements it. -/
def Operation.bare (o : Operation) : Operation := { o with body := none }

mutual

/-- The same module with its blocks in another order, and each of them rearranged. -/
inductive Module.Rearranged : Module → Module → Prop where
  | blocks {id : ModuleId} {blocks arranged blocks' : List Block}
      (each : BlocksRearranged blocks arranged) (order : arranged.Perm blocks') :
      Module.Rearranged ⟨id, blocks⟩ ⟨id, blocks'⟩

/-- One by one, the same blocks with their operations in another order. -/
inductive BlocksRearranged : List Block → List Block → Prop where
  | nil : BlocksRearranged [] []
  | cons {id : BlockId} {parent : Option ModuleId} {inputs outputs : Decls}
      {results : OrdMap String Value} {operations arranged operations' : List Operation}
      {rest rest' : List Block} (each : OperationsRearranged operations arranged)
      (order : arranged.Perm operations') (others : BlocksRearranged rest rest') :
      BlocksRearranged (⟨id, parent, inputs, outputs, results, operations⟩ :: rest)
        (⟨id, parent, inputs, outputs, results, operations'⟩ :: rest')

/-- One by one, the same operations with what implements them rearranged. -/
inductive OperationsRearranged : List Operation → List Operation → Prop where
  | nil : OperationsRearranged [] []
  | plain {id : OperationId} {parent : Option BlockId} {signature : Signature}
      {attributes : Attributes} {inputs : List Value} {rest rest' : List Operation}
      (others : OperationsRearranged rest rest') :
      OperationsRearranged (⟨id, parent, signature, attributes, inputs, none⟩ :: rest)
        (⟨id, parent, signature, attributes, inputs, none⟩ :: rest')
  | implemented {id : OperationId} {parent : Option BlockId} {signature : Signature}
      {attributes : Attributes} {inputs : List Value} {body body' : Module}
      {rest rest' : List Operation} (inner : Module.Rearranged body body')
      (others : OperationsRearranged rest rest') :
      OperationsRearranged (⟨id, parent, signature, attributes, inputs, some body⟩ :: rest)
        (⟨id, parent, signature, attributes, inputs, some body'⟩ :: rest')

end

mutual

theorem Module.Rearranged.refl : (m : Module) → m.Rearranged m
  | ⟨_, blocks⟩ => .blocks (BlocksRearranged.refl blocks) (.refl _)

theorem BlocksRearranged.refl : (blocks : List Block) → BlocksRearranged blocks blocks
  | [] => .nil
  | ⟨_, _, _, _, _, operations⟩ :: rest =>
      .cons (OperationsRearranged.refl operations) (.refl _) (BlocksRearranged.refl rest)

theorem OperationsRearranged.refl : (ops : List Operation) → OperationsRearranged ops ops
  | [] => .nil
  | ⟨_, _, _, _, _, none⟩ :: rest => .plain (OperationsRearranged.refl rest)
  | ⟨_, _, _, _, _, some body⟩ :: rest =>
      .implemented (Module.Rearranged.refl body) (OperationsRearranged.refl rest)

end

/-! ## What occurs -/

/-- The operation and all that occur in its implementation. -/
def Operation.occurrences (o : Operation) : List Operation :=
  o :: (o.body.map Module.occurrences).getD []

theorem occurrencesInOperations_eq_flatMap (ops : List Operation) :
    occurrencesInOperations ops = ops.flatMap Operation.occurrences := by
  induction ops with
  | nil => rfl
  | cons o rest ih =>
      obtain ⟨id, parent, signature, attributes, inputs, body⟩ := o
      cases body <;> simp [occurrencesInOperations, Operation.occurrences, ih]

theorem occurrencesInBlocks_eq_flatMap (blocks : List Block) :
    occurrencesInBlocks blocks = blocks.flatMap fun b => occurrencesInOperations b.operations := by
  induction blocks with
  | nil => rfl
  | cons b rest ih =>
      obtain ⟨id, parent, inputs, outputs, results, operations⟩ := b
      simp [occurrencesInBlocks, ih]

/-- Two lists hold the same operations, apart from what implements them. -/
abbrev SameBare (ops ops' : List Operation) : Prop :=
  (ops.map Operation.bare).Perm (ops'.map Operation.bare)

theorem SameBare.exists_alike {ops ops' : List Operation} (h : SameBare ops ops')
    {o' : Operation} (ho' : o' ∈ ops') :
    ∃ o, o ∈ ops ∧ o.bare = o'.bare ∧ o.id = o'.id ∧ o.inputs = o'.inputs ∧
      o.outputCount = o'.outputCount := by
  obtain ⟨o, ho, alike⟩ := List.mem_map.mp (h.mem_iff.mpr (List.mem_map_of_mem ho'))
  have id : o.bare.id = o'.bare.id := by rw [alike]
  have inputs : o.bare.inputs = o'.bare.inputs := by rw [alike]
  have count : o.bare.outputCount = o'.bare.outputCount := by rw [alike]
  exact ⟨o, ho, alike, id, inputs, count⟩

theorem SameBare.nodup_ids {ops ops' : List Operation} (h : SameBare ops ops')
    (distinct : (ops.map (·.id)).Nodup) : (ops'.map (·.id)).Nodup := by
  have ids := h.map Operation.id
  rw [List.map_map, List.map_map] at ids
  exact ids.nodup_iff.mp distinct

mutual

theorem Module.Rearranged.sameBare {m m' : Module} (h : m.Rearranged m') :
    SameBare m.occurrences m'.occurrences := by
  cases h with
  | @blocks _ blocks arranged blocks' each order =>
      have moved : (occurrencesInBlocks arranged).Perm (occurrencesInBlocks blocks') := by
        rw [occurrencesInBlocks_eq_flatMap, occurrencesInBlocks_eq_flatMap]
        exact order.flatMap_right _
      rw [Module.occurrences, Module.occurrences]
      exact each.sameBare.trans (moved.map _)

theorem BlocksRearranged.sameBare {blocks blocks' : List Block}
    (h : BlocksRearranged blocks blocks') :
    SameBare (occurrencesInBlocks blocks) (occurrencesInBlocks blocks') := by
  cases h with
  | nil => exact .refl _
  | @cons _ _ _ _ _ _ arranged operations' _ _ each order others =>
      have moved : (occurrencesInOperations arranged).Perm
          (occurrencesInOperations operations') := by
        rw [occurrencesInOperations_eq_flatMap, occurrencesInOperations_eq_flatMap]
        exact order.flatMap_right _
      rw [occurrencesInBlocks, occurrencesInBlocks, SameBare, List.map_append, List.map_append]
      exact (each.sameBare.trans (moved.map _)).append others.sameBare

theorem OperationsRearranged.sameBare {ops ops' : List Operation}
    (h : OperationsRearranged ops ops') :
    SameBare (occurrencesInOperations ops) (occurrencesInOperations ops') := by
  cases h with
  | nil => exact .refl _
  | plain others =>
      rw [occurrencesInOperations, occurrencesInOperations]
      exact others.sameBare.cons _
  | implemented inner others =>
      rw [occurrencesInOperations, occurrencesInOperations, SameBare, List.map_cons,
        List.map_cons, List.map_append, List.map_append]
      exact (inner.sameBare.append others.sameBare).cons _

end

end TagFlow
