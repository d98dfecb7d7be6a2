import Mathlib.Data.List.Nodup
import TagFlow.Program.Tree
import TagFlow.Proofs.Outcome

/-! # What the indices of a module say

Blocks and operations are looked up by their positions. Both indices point at what they name,
so that a lookup never leaves the range, and they name all that there is: a lookup finds the
last block or operation with the id.
-/

namespace TagFlow

section

variable {κ α β : Type} [DecidableEq κ] (key : α → κ)

/-! ## The last with a key -/

/-- Where keys are distinct, the last with a key is the only one. -/
theorem find?_reverse_key {l : List α} (distinct : (l.map key).Nodup) {k : κ} {a : α} :
    l.reverse.find? (key · = k) = some a ↔ a ∈ l ∧ key a = k := by
  constructor
  · intro h
    exact ⟨List.mem_reverse.mp (List.mem_of_find?_eq_some h), by simpa using List.find?_some h⟩
  · rintro ⟨ha, rfl⟩
    have reversed : (l.reverse.map key).Nodup := by
      rw [List.map_reverse]
      exact List.nodup_reverse.mpr distinct
    exact Outcome.find?_key_of_mem reversed (List.mem_reverse.mpr ha)

/-- Nothing after the last with a key has the key. -/
theorem find?_reverse_eq_some_iff {l : List α} {k : κ} {a : α} :
    l.reverse.find? (key · = k) = some a ↔ key a = k ∧ ∃ before after,
      l = before ++ a :: after ∧ ∀ b, b ∈ after → key b ≠ k := by
  rw [List.find?_eq_some_iff_append]
  simp only [decide_eq_true_eq, Bool.not_eq_true', decide_eq_false_iff_not]
  refine and_congr_right fun _ => ⟨?_, ?_⟩
  · rintro ⟨after, before, split, others⟩
    refine ⟨before.reverse, after.reverse, ?_, fun b hb => others b (List.mem_reverse.mp hb)⟩
    rw [← List.reverse_reverse l, split]
    simp
  · rintro ⟨before, after, split, others⟩
    exact ⟨after.reverse, before.reverse, by simp [split],
      fun b hb => others b (List.mem_reverse.mp hb)⟩

/-! ## Indices of positions -/

variable [Key κ] {placed : List (α × β)} {at? : β → Option α}
  (points : ∀ e, e ∈ placed → at? e.2 = some e.1)

theorem find?_index (k : κ) :
    (OrdMap.ofList (placed.map fun e => (key e.1, e.2))).find? k =
      (placed.reverse.find? (key ·.1 = k)).map (·.2) := by
  rw [OrdMap.find?_ofList, ← List.map_reverse, List.find?_map, Option.map_map]
  rfl

include points

/-- An index points at something that has the key. -/
theorem exists_at_of_index {k : κ} {place : β}
    (h : (OrdMap.ofList (placed.map fun e => (key e.1, e.2))).find? k = some place) :
    ∃ a, at? place = some a ∧ key a = k := by
  rw [find?_index] at h
  obtain ⟨e, he, rfl⟩ := Option.map_eq_some_iff.mp h
  exact ⟨e.1, points e (List.mem_reverse.mp (List.mem_of_find?_eq_some he)),
    by simpa using List.find?_some he⟩

/-- Looking up through an index finds the last with the key. -/
theorem index_bind_at (k : κ) :
    ((OrdMap.ofList (placed.map fun e => (key e.1, e.2))).find? k).bind at? =
      (placed.map (·.1)).reverse.find? (key · = k) := by
  rw [find?_index, ← List.map_reverse, List.find?_map]
  show _ = (placed.reverse.find? (key ·.1 = k)).map (·.1)
  cases h : placed.reverse.find? (key ·.1 = k) with
  | none => rfl
  | some e => exact points e (List.mem_reverse.mp (List.mem_of_find?_eq_some h))

end

namespace Module

/-! ## Blocks -/

theorem getElem?_of_mem_zipIdx {m : Module} (e : Block × Nat) (h : e ∈ m.blocks.zipIdx) :
    m.blocks[e.2]? = some e.1 :=
  List.mem_zipIdx_iff_getElem?.mp h

theorem block_of_blockIndex {m : Module} {id : BlockId} {position : Nat}
    (h : m.blockIndex.find? id = some position) :
    ∃ b, m.blocks[position]? = some b ∧ b.id = id :=
  exists_at_of_index Block.id getElem?_of_mem_zipIdx h

theorem findBlock?_eq (m : Module) (id : BlockId) :
    m.findBlock? id = m.blocks.reverse.find? (·.id = id) := by
  have found := index_bind_at Block.id m.getElem?_of_mem_zipIdx id
  rw [List.zipIdx_map_fst] at found
  exact found

theorem blockIndex_contains_iff {m : Module} {id : BlockId} :
    m.blockIndex.contains id = true ↔ ∃ b, b ∈ m.blocks ∧ b.id = id := by
  constructor
  · intro h
    obtain ⟨position, hposition⟩ := Option.isSome_iff_exists.mp h
    obtain ⟨b, hb, hid⟩ := block_of_blockIndex hposition
    exact ⟨b, List.mem_of_getElem? hb, hid⟩
  · rintro ⟨b, hb, hid⟩
    have found : (m.findBlock? id).isSome = true := by
      rw [findBlock?_eq, List.find?_isSome]
      exact ⟨b, List.mem_reverse.mpr hb, by simpa using hid⟩
    rw [OrdMap.contains]
    cases h : m.blockIndex.find? id with
    | none => simp [findBlock?, h] at found
    | some position => rfl

/-! ## Operations -/

theorem places_map_fst (m : Module) : m.places.map (·.1) = m.operations := by
  have own : ∀ b : Block × Nat,
      (b.1.operations.zipIdx.map fun o => (o.1, b.2, o.2)).map (·.1) = b.1.operations := by
    intro b
    rw [List.map_map]
    exact List.zipIdx_map_fst ..
  calc
    m.places.map (·.1) = m.blocks.zipIdx.flatMap fun b => b.1.operations := by
      rw [places, List.map_flatMap]
      simp only [own]
    _ = (m.blocks.zipIdx.map (·.1)).flatMap Block.operations := by rw [List.flatMap_map]
    _ = m.operations := by rw [List.zipIdx_map_fst, operations]

theorem operationAt?_of_mem_places {m : Module} (p : Operation × Nat × Nat) (h : p ∈ m.places) :
    m.operationAt? p.2 = some p.1 := by
  obtain ⟨b, hb, hp⟩ := List.mem_flatMap.mp h
  obtain ⟨o, ho, rfl⟩ := List.mem_map.mp hp
  have hblock : m.blocks[b.2]? = some b.1 := List.mem_zipIdx_iff_getElem?.mp hb
  have hop : b.1.operations[o.2]? = some o.1 := List.mem_zipIdx_iff_getElem?.mp ho
  simp [operationAt?, hblock, hop]

theorem operation_of_operationIndex {m : Module} {id : OperationId} {place : Nat × Nat}
    (h : m.operationIndex.find? id = some place) :
    ∃ o, m.operationAt? place = some o ∧ o.id = id :=
  exists_at_of_index Operation.id operationAt?_of_mem_places h

theorem findOperation?_eq (m : Module) (id : OperationId) :
    m.findOperation? id = m.operations.reverse.find? (·.id = id) := by
  have found := index_bind_at Operation.id m.operationAt?_of_mem_places id
  rw [places_map_fst] at found
  exact found

theorem findOperation?_eq_some_iff_last {m : Module} {id : OperationId} {o : Operation} :
    m.findOperation? id = some o ↔ o.id = id ∧ ∃ before after,
      m.operations = before ++ o :: after ∧ ∀ p, p ∈ after → p.id ≠ id := by
  rw [findOperation?_eq]
  exact find?_reverse_eq_some_iff Operation.id

theorem findOperation?_eq_none_iff {m : Module} {id : OperationId} :
    m.findOperation? id = none ↔ ∀ o, o ∈ m.operations → o.id ≠ id := by
  rw [findOperation?_eq, List.find?_eq_none]
  simp

end Module

end TagFlow
