import TagFlow.Proofs.Flow.Graph
import TagFlow.Proofs.Program.Dataflow

/-! # Modules put together block by block

A module is built by offering it blocks one after the other; a block whose id is taken is
refused, and nothing changes. Whatever blocks are offered, both indices grow in step with the
blocks, and where no operation has an implementation the lookups of the module agree with those
of its dataflow graph.
-/

namespace TagFlow

namespace Module

/-! ## One block -/

/-- The block as a part of the module. -/
def adopt (m : Module) (b : Block) : Block := { b with parent := some m.id }

theorem push_of_taken {m : Module} {b : Block} (h : ∃ c, c ∈ m.blocks ∧ c.id = b.id) :
    m.push b = .error (.repeatedBlock b.id m.id) :=
  if_pos (blockIndex_contains_iff.mpr h)

theorem push_of_free {m : Module} {b : Block} (h : ∀ c, c ∈ m.blocks → c.id ≠ b.id) :
    m.push b = .ok ⟨m.id, m.blocks ++ [m.adopt b]⟩ := by
  have free : ¬ m.blockIndex.contains b.id = true := by
    rw [blockIndex_contains_iff]
    rintro ⟨c, hc, hid⟩
    exact h c hc hid
  exact if_neg free

theorem taken_or_free (m : Module) (b : Block) :
    (∃ c, c ∈ m.blocks ∧ c.id = b.id) ∨ ∀ c, c ∈ m.blocks → c.id ≠ b.id := by
  by_cases taken : ∃ c, c ∈ m.blocks ∧ c.id = b.id
  · exact .inl taken
  · exact .inr fun c hc hid => taken ⟨c, hc, hid⟩

/-- The module after a block was offered to it. -/
def offered (m : Module) (b : Block) : Module :=
  match m.push b with
  | .ok m' => m'
  | .error _ => m

theorem offered_of_taken {m : Module} {b : Block} (h : ∃ c, c ∈ m.blocks ∧ c.id = b.id) :
    m.offered b = m := by
  rw [offered, push_of_taken h]

theorem offered_of_free {m : Module} {b : Block} (h : ∀ c, c ∈ m.blocks → c.id ≠ b.id) :
    m.offered b = ⟨m.id, m.blocks ++ [m.adopt b]⟩ := by
  rw [offered, push_of_free h]

theorem offered_id (m : Module) (b : Block) : (m.offered b).id = m.id := by
  rcases m.taken_or_free b with taken | free
  · rw [offered_of_taken taken]
  · rw [offered_of_free free]

/-! ## Indices that grow

A block that is taken in adds one entry to the first index and one for each of its operations
to the second, where a later entry replaces an earlier one. -/

theorem blockIndex_offered {m : Module} {b : Block} (h : ∀ c, c ∈ m.blocks → c.id ≠ b.id) :
    (m.offered b).blockIndex = m.blockIndex.insert b.id m.blocks.length := by
  rw [offered_of_free h]
  simp [blockIndex, OrdMap.ofList, adopt, List.zipIdx_append]

theorem operationIndex_offered {m : Module} {b : Block} (h : ∀ c, c ∈ m.blocks → c.id ≠ b.id) :
    (m.offered b).operationIndex =
      b.operations.zipIdx.foldl
        (fun index o => index.insert o.1.id (m.blocks.length, o.2)) m.operationIndex := by
  rw [offered_of_free h]
  simp [operationIndex, places, OrdMap.ofList, adopt, List.zipIdx_append, List.foldl_map]

/-! ## Any number of blocks -/

/-- No two blocks share an id, and every block belongs to the module. -/
structure Tidy (m : Module) : Prop where
  distinct : (m.blocks.map Block.id).Nodup
  owned : ∀ b, b ∈ m.blocks → b.parent = some m.id

theorem Tidy.empty (id : ModuleId) : (Module.empty id).Tidy :=
  ⟨List.nodup_nil, by simp [Module.empty]⟩

theorem Tidy.offered {m : Module} (h : m.Tidy) (b : Block) : (m.offered b).Tidy := by
  rcases m.taken_or_free b with taken | free
  · rwa [offered_of_taken taken]
  · rw [offered_of_free free]
    constructor
    · simpa [List.nodup_append, h.distinct, adopt] using free
    · intro c hc
      rcases List.mem_append.mp hc with hc | hc
      · exact h.owned c hc
      · rw [List.mem_singleton.mp hc]
        rfl

/-- A new module to which blocks were offered one after the other. -/
def assembled (id : ModuleId) (blocks : List Block) : Module :=
  blocks.foldl offered (.empty id)

theorem assembled_concat (id : ModuleId) (blocks : List Block) (b : Block) :
    assembled id (blocks ++ [b]) = (assembled id blocks).offered b := by
  simp [assembled]

theorem assembled_tidy (id : ModuleId) (blocks : List Block) : (assembled id blocks).Tidy := by
  induction blocks using List.reverseRecOn with
  | nil => exact .empty id
  | append_singleton blocks b ih =>
      rw [assembled_concat]
      exact ih.offered b

theorem assembled_id (id : ModuleId) (blocks : List Block) : (assembled id blocks).id = id := by
  induction blocks using List.reverseRecOn with
  | nil => rfl
  | append_singleton blocks b ih => rw [assembled_concat, offered_id, ih]

/-! ## Blocks found by id -/

theorem findBlock?_eq_none_iff {m : Module} {id : BlockId} :
    m.findBlock? id = none ↔ ∀ b, b ∈ m.blocks → b.id ≠ id := by
  rw [findBlock?_eq, List.find?_eq_none]
  simp

theorem Tidy.findBlock?_eq_some_iff {m : Module} (h : m.Tidy) {id : BlockId} {b : Block} :
    m.findBlock? id = some b ↔ b ∈ m.blocks ∧ b.id = id := by
  rw [findBlock?_eq]
  exact find?_reverse_key Block.id h.distinct

theorem findBlock?_offered (m : Module) (b : Block) (id : BlockId) :
    (m.offered b).findBlock? id =
      (m.findBlock? id).or (if b.id = id then some (m.adopt b) else none) := by
  rcases m.taken_or_free b with taken | free
  · rw [offered_of_taken taken]
    cases found : m.findBlock? id with
    | some c => rfl
    | none =>
        obtain ⟨c, hc, hid⟩ := taken
        have other : b.id ≠ id := by
          rw [← hid]
          exact findBlock?_eq_none_iff.mp found c hc
        simp [other]
  · rw [offered_of_free free]
    by_cases hid : b.id = id
    · have none : m.findBlock? id = none := findBlock?_eq_none_iff.mpr (hid ▸ free)
      rw [none, findBlock?_eq]
      simp [hid, adopt]
    · simp [findBlock?_eq, hid, adopt]

/-- The block found is the first that was offered with the id. -/
theorem findBlock?_assembled (id : ModuleId) (blocks : List Block) (k : BlockId) :
    (assembled id blocks).findBlock? k =
      (blocks.find? (·.id = k)).map fun b => { b with parent := some id } := by
  induction blocks using List.reverseRecOn with
  | nil => simp [assembled, findBlock?_eq, Module.empty]
  | append_singleton blocks b ih =>
      rw [assembled_concat, findBlock?_offered, ih, List.find?_append, Option.map_or]
      by_cases hid : b.id = k <;> simp [hid, adopt, assembled_id]

/-! ## All lookups -/

theorem Flat.graph_operation {m : Module} (h : m.Flat) (id : OperationId) :
    (FlowGraph.ofModule m).operation id =
      (m.findOperation? id).elim (.error .missingOperation) .ok := by
  have same : (FlowGraph.ofModule m).lookup.find? id = m.findOperation? id := by
    rw [FlowGraph.ofModule, h.occurrences, FlowGraph.lookup_ofOperations, findOperation?_eq]
  rw [FlowGraph.operation, same]
  cases m.findOperation? id <;> rfl

/-- What the lookups of a module answer, and that no index points outside of it. -/
structure Answers (m : Module) : Prop where
  block : ∀ id b, m.findBlock? id = some b ↔ b ∈ m.blocks ∧ b.id = id
  no_block : ∀ id, m.findBlock? id = none ↔ ∀ b, b ∈ m.blocks → b.id ≠ id
  block_inside : ∀ id position, m.blockIndex.find? id = some position →
    ∃ b, m.blocks[position]? = some b ∧ b.id = id
  operation : ∀ id o, m.findOperation? id = some o ↔ o.id = id ∧ ∃ before after,
    m.operations = before ++ o :: after ∧ ∀ p, p ∈ after → p.id ≠ id
  no_operation : ∀ id, m.findOperation? id = none ↔ ∀ o, o ∈ m.operations → o.id ≠ id
  operation_inside : ∀ id place, m.operationIndex.find? id = some place →
    ∃ o, m.operationAt? place = some o ∧ o.id = id
  graph : m.Flat → ∀ id, (FlowGraph.ofModule m).operation id =
    (m.findOperation? id).elim (.error .missingOperation) .ok

theorem Tidy.answers {m : Module} (h : m.Tidy) : m.Answers where
  block _ _ := h.findBlock?_eq_some_iff
  no_block _ := findBlock?_eq_none_iff
  block_inside _ _ := block_of_blockIndex
  operation _ _ := findOperation?_eq_some_iff_last
  no_operation _ := findOperation?_eq_none_iff
  operation_inside _ _ := operation_of_operationIndex
  graph flat := flat.graph_operation

/-- Whatever blocks a module was offered, its lookups answer for the blocks that it holds, all
of them its own, and of several blocks offered with one id it holds the first. Blocks and both
indices start empty. One more block is refused where its id is taken, and otherwise extends all
three. -/
theorem assembled_answers (id : ModuleId) (blocks : List Block) :
    let m := assembled id blocks
    let new := assembled id []
    m.id = id ∧ m.Answers ∧ (∀ b, b ∈ m.blocks → b.parent = some id) ∧
      (∀ k, m.findBlock? k =
        (blocks.find? (·.id = k)).map fun b => { b with parent := some id }) ∧
      (new.blocks = [] ∧ new.blockIndex = .empty ∧ new.operationIndex = .empty) ∧
      ∀ b, let next := assembled id (blocks ++ [b])
        ((∃ c, c ∈ m.blocks ∧ c.id = b.id) →
          m.push b = .error (.repeatedBlock b.id id) ∧ next = m) ∧
        ((∀ c, c ∈ m.blocks → c.id ≠ b.id) →
          m.push b = .ok next ∧ next.blocks = m.blocks ++ [{ b with parent := some id }] ∧
            next.blockIndex = m.blockIndex.insert b.id m.blocks.length ∧
            next.operationIndex = b.operations.zipIdx.foldl
              (fun index o => index.insert o.1.id (m.blocks.length, o.2)) m.operationIndex) := by
  intro m new
  have hid : m.id = id := assembled_id id blocks
  have tidy : m.Tidy := assembled_tidy id blocks
  refine ⟨hid, tidy.answers, fun b hb => hid ▸ tidy.owned b hb, findBlock?_assembled id blocks,
    ⟨rfl, rfl, rfl⟩, ?_⟩
  intro b next
  have hnext : next = m.offered b := assembled_concat id blocks b
  rw [hnext]
  constructor
  · intro taken
    exact ⟨hid ▸ push_of_taken taken, offered_of_taken taken⟩
  · intro free
    refine ⟨?_, ?_, blockIndex_offered free, operationIndex_offered free⟩
    · rw [push_of_free free, offered_of_free free]
    · rw [offered_of_free free, adopt, hid]

/-- The second block is refused, and the last of four operations with one id is found. -/
example :
    let named (name : String) : Operation := ⟨7, none, { name }, .empty, [], none⟩
    let block (id : BlockId) (names : List String) : Block :=
      ⟨id, none, .empty, .empty, .empty, names.map named⟩
    let m := assembled 0 [block 1 ["a", "b"], block 1 ["c"], block 2 ["d", "e"]]
    m.operations.map (·.operator) = ["a", "b", "d", "e"] ∧
      (m.findOperation? 7).map (·.operator) = some "e" := by
  decide

end Module

end TagFlow
