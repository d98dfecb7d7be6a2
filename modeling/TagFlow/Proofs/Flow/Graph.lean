import Mathlib.Data.List.Induction
import Mathlib.Data.List.Nodup
import TagFlow.Flow.Graph

/-! # What the dataflow graph of a list of operations holds

Nodes, edges and lookups are read off the operations directly, so that later proofs
speak of operations and never of the graph. Asking for the readers of a value that
occurs always succeeds.
-/

namespace TagFlow

namespace FlowGraph

/-! ## Edges of one operation -/

theorem mem_edgesOf {o : Operation} {e : Edge} :
    e ∈ edgesOf o ↔
      (∃ (i : Nat) (v : Value), o.inputs[i]? = some v ∧ e = ⟨.value v, i, .operation o.id⟩) ∨
        ∃ i : Nat, i < o.outputCount ∧ e = ⟨.operation o.id, i, .value (.result o.id i)⟩ := by
  have hout : ∀ (i : Nat) (v : Value),
      o.outputs[i]? = some v ↔ i < o.outputCount ∧ v = .result o.id i := by
    intro i v
    simp only [Operation.outputs, List.getElem?_map, Option.map_eq_some_iff,
      List.getElem?_eq_some_iff, List.length_range, List.getElem_range]
    constructor
    · rintro ⟨j, ⟨hi, rfl⟩, rfl⟩
      exact ⟨hi, rfl⟩
    · rintro ⟨hi, rfl⟩
      exact ⟨i, ⟨hi, rfl⟩, rfl⟩
  simp only [edgesOf, List.mem_append, List.mem_map, Prod.exists, List.mem_zipIdx_iff_getElem?]
  constructor
  · rintro (⟨v, i, h, rfl⟩ | ⟨v, i, h, rfl⟩)
    · exact .inl ⟨i, v, h, rfl⟩
    · obtain ⟨hi, rfl⟩ := (hout i v).mp h
      exact .inr ⟨i, hi, rfl⟩
  · rintro (⟨i, v, h, rfl⟩ | ⟨i, hi, rfl⟩)
    · exact .inl ⟨v, i, h, rfl⟩
    · exact .inr ⟨.result o.id i, i, (hout i _).mpr ⟨hi, rfl⟩, rfl⟩

theorem mem_outputs {o : Operation} {v : Value} :
    v ∈ o.outputs ↔ ∃ i : Nat, i < o.outputCount ∧ v = .result o.id i := by
  simp only [Operation.outputs, List.mem_map, List.mem_range]
  constructor <;> rintro ⟨i, hi, h⟩ <;> exact ⟨i, hi, h.symm⟩

/-! ## Adding edges and operations -/

theorem foldl_addEdge_order (es : List Edge) (g : FlowGraph) :
    (es.foldl addEdge g).order = g.order := by
  induction es generalizing g with
  | nil => rfl
  | cons e es ih => rw [List.foldl_cons, ih]; rfl

theorem foldl_addEdge_lookup (es : List Edge) (g : FlowGraph) :
    (es.foldl addEdge g).lookup = g.lookup := by
  induction es generalizing g with
  | nil => rfl
  | cons e es ih => rw [List.foldl_cons, ih]; rfl

theorem mem_foldl_addEdge_edges {es : List Edge} {g : FlowGraph} {e : Edge} :
    e ∈ (es.foldl addEdge g).edges ↔ e ∈ g.edges ∨ e ∈ es := by
  induction es generalizing g with
  | nil => simp
  | cons d es ih =>
      rw [List.foldl_cons, ih]
      simp only [addEdge, OrdSet.mem_insert, List.mem_cons]
      constructor
      · rintro ((h | h) | h) <;> simp [h]
      · rintro (h | h | h) <;> simp [h]

theorem mem_foldl_addEdge_nodes {es : List Edge} {g : FlowGraph} {n : Node} :
    n ∈ (es.foldl addEdge g).nodes ↔
      n ∈ g.nodes ∨ ∃ e, e ∈ es ∧ (n = e.source ∨ n = e.target) := by
  induction es generalizing g with
  | nil => simp
  | cons d es ih =>
      rw [List.foldl_cons, ih]
      simp only [addEdge, OrdSet.mem_insert, List.mem_cons]
      constructor
      · rintro ((h | h | h) | ⟨e, he, h⟩)
        · exact .inr ⟨d, .inl rfl, .inr h⟩
        · exact .inr ⟨d, .inl rfl, .inl h⟩
        · exact .inl h
        · exact .inr ⟨e, .inr he, h⟩
      · rintro (h | ⟨e, rfl | he, h⟩)
        · exact .inl (.inr (.inr h))
        · rcases h with h | h <;> simp [h]
        · exact .inr ⟨e, he, h⟩

theorem addOperation_order (g : FlowGraph) (o : Operation) :
    (g.addOperation o).order = g.order ++ [o.id] :=
  foldl_addEdge_order _ _

theorem addOperation_lookup (g : FlowGraph) (o : Operation) :
    (g.addOperation o).lookup = g.lookup.insert o.id o :=
  foldl_addEdge_lookup _ _

/-! ## The graph of a list of operations -/

theorem ofOperations_concat (ops : List Operation) (o : Operation) :
    ofOperations (ops ++ [o]) = (ofOperations ops).addOperation o := by
  simp [ofOperations]

@[simp] theorem order_ofOperations (ops : List Operation) :
    (ofOperations ops).order = ops.map (·.id) := by
  induction ops using List.reverseRecOn with
  | nil => rfl
  | append_singleton ops o ih => simp [ofOperations_concat, addOperation_order, ih]

theorem mem_edges_ofOperations {ops : List Operation} {e : Edge} :
    e ∈ (ofOperations ops).edges ↔ ∃ o, o ∈ ops ∧ e ∈ edgesOf o := by
  induction ops using List.reverseRecOn with
  | nil => simp [ofOperations]
  | append_singleton ops o ih =>
      rw [ofOperations_concat, addOperation, mem_foldl_addEdge_edges]
      simp only [ih, List.mem_append, List.mem_singleton]
      constructor
      · rintro (⟨o', ho, h⟩ | h)
        · exact ⟨o', .inl ho, h⟩
        · exact ⟨o, .inr rfl, h⟩
      · rintro ⟨o', ho | rfl, h⟩
        · exact .inl ⟨o', ho, h⟩
        · exact .inr h

theorem mem_nodes_ofOperations {ops : List Operation} {n : Node} :
    n ∈ (ofOperations ops).nodes ↔
      ∃ o, o ∈ ops ∧
        (n = .operation o.id ∨ ∃ v, (v ∈ o.inputs ∨ v ∈ o.outputs) ∧ n = .value v) := by
  have hedge : ∀ o : Operation,
      (n = .operation o.id ∨ ∃ e, e ∈ edgesOf o ∧ (n = e.source ∨ n = e.target)) ↔
        (n = .operation o.id ∨ ∃ v, (v ∈ o.inputs ∨ v ∈ o.outputs) ∧ n = .value v) := by
    intro o
    constructor
    · rintro (h | ⟨e, he, h⟩)
      · exact .inl h
      · rcases mem_edgesOf.mp he with ⟨i, v, hv, rfl⟩ | ⟨i, hi, rfl⟩
        · rcases h with h | h
          · exact .inr ⟨v, .inl (List.mem_of_getElem? hv), h⟩
          · exact .inl h
        · rcases h with h | h
          · exact .inl h
          · exact .inr ⟨_, .inr (mem_outputs.mpr ⟨i, hi, rfl⟩), h⟩
    · rintro (h | ⟨v, hv | hv, h⟩)
      · exact .inl h
      · obtain ⟨i, hi⟩ := List.getElem?_of_mem hv
        exact .inr ⟨_, mem_edgesOf.mpr (.inl ⟨i, v, hi, rfl⟩), .inl h⟩
      · obtain ⟨i, hi, rfl⟩ := mem_outputs.mp hv
        exact .inr ⟨_, mem_edgesOf.mpr (.inr ⟨i, hi, rfl⟩), .inr h⟩
  induction ops using List.reverseRecOn with
  | nil => simp [ofOperations]
  | append_singleton ops o ih =>
      rw [ofOperations_concat, addOperation, mem_foldl_addEdge_nodes]
      simp only [OrdSet.mem_insert, ih, List.mem_append, List.mem_singleton]
      constructor
      · rintro ((h | ⟨o', ho, h⟩) | h)
        · exact ⟨o, .inr rfl, .inl h⟩
        · exact ⟨o', .inl ho, h⟩
        · exact ⟨o, .inr rfl, (hedge o).mp (.inr h)⟩
      · rintro ⟨o', ho | rfl, h⟩
        · exact .inl (.inr ⟨o', ho, h⟩)
        · rcases (hedge o').mpr h with h | h
          · exact .inl (.inl h)
          · exact .inr h

/-! ## Lookup -/

theorem lookup_ofOperations_concat (ops : List Operation) (o : Operation) (id : OperationId) :
    (ofOperations (ops ++ [o])).lookup.find? id =
      if id = o.id then some o else (ofOperations ops).lookup.find? id := by
  rw [ofOperations_concat, addOperation_lookup, OrdMap.find?_insert]

/-- Of several operations with one id the last is looked up. -/
theorem lookup_ofOperations (ops : List Operation) (id : OperationId) :
    (ofOperations ops).lookup.find? id = ops.reverse.find? (·.id = id) := by
  induction ops using List.reverseRecOn with
  | nil => rfl
  | append_singleton ops o ih =>
      rw [lookup_ofOperations_concat, List.reverse_concat, List.find?_cons, ih]
      by_cases h : id = o.id
      · simp [h]
      · simp [h, Ne.symm h]

theorem mem_of_lookup {ops : List Operation} {id : OperationId} {o : Operation}
    (h : (ofOperations ops).lookup.find? id = some o) : o ∈ ops ∧ o.id = id := by
  rw [lookup_ofOperations] at h
  exact ⟨List.mem_reverse.mp (List.mem_of_find?_eq_some h), by simpa using List.find?_some h⟩

theorem exists_lookup {ops : List Operation} {id : OperationId} (h : id ∈ ops.map (·.id)) :
    ∃ o, (ofOperations ops).lookup.find? id = some o := by
  obtain ⟨o, ho, rfl⟩ := List.mem_map.mp h
  rw [lookup_ofOperations, ← Option.isSome_iff_exists, List.find?_isSome]
  exact ⟨o, List.mem_reverse.mpr ho, by simp⟩

/-- When no id is used twice, every operation is the one found under its id. -/
theorem lookup_of_mem {ops : List Operation} (distinct : (ops.map (·.id)).Nodup)
    {o : Operation} (h : o ∈ ops) : (ofOperations ops).lookup.find? o.id = some o := by
  obtain ⟨o', ho'⟩ := exists_lookup (List.mem_map_of_mem h)
  obtain ⟨hm, hid⟩ := mem_of_lookup ho'
  rw [ho', List.inj_on_of_nodup_map distinct hm h hid]

theorem mem_operations {ops : List Operation} {o : Operation} :
    o ∈ (ofOperations ops).operations ↔ (ofOperations ops).lookup.find? o.id = some o := by
  rw [operations, order_ofOperations, List.mem_filterMap]
  constructor
  · rintro ⟨id, -, h⟩
    rwa [(mem_of_lookup h).2]
  · intro h
    exact ⟨o.id, List.mem_map_of_mem (mem_of_lookup h).1, h⟩

theorem operations_eq_of_distinct {ops : List Operation} (distinct : (ops.map (·.id)).Nodup) :
    (ofOperations ops).operations = ops := by
  have : ∀ l : List Operation, (∀ o, o ∈ l → o ∈ ops) →
      (l.map (·.id)).filterMap (ofOperations ops).lookup.find? = l := by
    intro l
    induction l with
    | nil => intro _; rfl
    | cons o l ih =>
        intro h
        rw [List.map_cons, List.filterMap_cons, lookup_of_mem distinct (h o (by simp))]
        simp only [ih fun o' ho' => h o' (by simp [ho'])]
  rw [operations, order_ofOperations]
  exact this ops fun _ h => h

theorem operation_eq_ok {g : FlowGraph} {id : OperationId} {o : Operation} :
    g.operation id = .ok o ↔ g.lookup.find? id = some o := by
  unfold operation
  cases g.lookup.find? id <;> simp

/-! ## Readers -/

theorem readers_ok {l : List (Nat × Node)} (h : ∀ e, e ∈ l → ∃ id, e.2 = .operation id) :
    ∃ r, readers l = .ok r ∧
      ∀ (i : Nat) (id : OperationId), (i, id) ∈ r ↔ (i, Node.operation id) ∈ l := by
  induction l with
  | nil => exact ⟨[], rfl, by simp⟩
  | cons e l ih =>
      obtain ⟨i, node⟩ := e
      obtain ⟨id, hid⟩ := h (i, node) (by simp)
      simp only at hid
      subst hid
      obtain ⟨r, hr, hmem⟩ := ih fun e he => h e (by simp [he])
      refine ⟨(i, id) :: r, by rw [readers, hr]; rfl, ?_⟩
      intro j k
      simp [hmem]

/-- The readers of a value that occurs are the operations with that input, at every
position. -/
theorem uses_ok {ops : List Operation} {o : Operation} {v : Value} (ho : o ∈ ops)
    (hv : v ∈ o.inputs ∨ v ∈ o.outputs) :
    ∃ r, (ofOperations ops).uses v = .ok r ∧
      ∀ (i : Nat) (id : OperationId),
        (i, id) ∈ r ↔ ∃ o', o' ∈ ops ∧ o'.id = id ∧ o'.inputs[i]? = some v := by
  have hnode : (ofOperations ops).contains (.value v) = true :=
    OrdSet.contains_iff.mpr (mem_nodes_ofOperations.mpr ⟨o, ho, .inr ⟨v, hv, rfl⟩⟩)
  have hedges : ∀ (i : Nat) (n : Node),
      (i, n) ∈ (((ofOperations ops).edges.toList.filter (·.source = .value v)).map
        fun e => (e.index, e.target)) ↔
        ∃ o', o' ∈ ops ∧ n = .operation o'.id ∧ o'.inputs[i]? = some v := by
    intro i n
    simp only [List.mem_map, List.mem_filter, decide_eq_true_eq, ← OrdSet.mem_def,
      mem_edges_ofOperations, Prod.mk.injEq]
    constructor
    · rintro ⟨e, ⟨⟨o', ho', he⟩, hs⟩, rfl, rfl⟩
      rcases mem_edgesOf.mp he with ⟨j, w, hw, rfl⟩ | ⟨j, _, rfl⟩
      · cases hs
        exact ⟨o', ho', rfl, hw⟩
      · simp at hs
    · rintro ⟨o', ho', rfl, hi⟩
      exact ⟨_, ⟨⟨o', ho', mem_edgesOf.mpr (.inl ⟨i, v, hi, rfl⟩)⟩, rfl⟩, rfl, rfl⟩
  obtain ⟨r, hr, hmem⟩ := readers_ok (l := ((ofOperations ops).edges.toList.filter
      (·.source = .value v)).map fun e => (e.index, e.target)) (by
    rintro ⟨i, n⟩ he
    obtain ⟨o', _, hn, _⟩ := (hedges i n).mp he
    exact ⟨o'.id, hn⟩)
  refine ⟨r, by simp only [uses, outEdges, hnode, if_true]; exact hr, ?_⟩
  intro i id
  rw [hmem, hedges]
  simp only [Node.operation.injEq, eq_comm (a := id)]

end FlowGraph

end TagFlow
