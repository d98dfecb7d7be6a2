import Mathlib.Data.Finset.Max
import Mathlib.Data.Set.Card
import TagFlow.Proofs.Flow.Graph
import TagFlow.Proofs.Ordered.Distinct
import TagFlow.Proofs.Program.Lookup
import TagFlow.Proofs.Program.Preorder

/-! # The dataflow graph of a module

The graph of a module is its dataflow relation and nothing else, whatever ids its operations have.
Each occurrence contributes its edges, equal edges of different occurrences count once, and what
leaves a node is listed in increasing order. Asking about a node that does not occur is the only
fault. A graph that is built up one node and one edge at a time answers in the same way.
-/

namespace TagFlow

namespace Module

/-- Some occurrence reads the source at a position, or yields the target there. -/
inductive Carries (m : Module) : Edge → Prop where
  | input {o : Operation} {i : Nat} {v : Value} (occurs : m.Occurs o)
      (reads : o.inputs[i]? = some v) : Carries m ⟨.value v, i, .operation o.id⟩
  | output {o : Operation} {i : Nat} (occurs : m.Occurs o) (yields : i < o.outputCount) :
      Carries m ⟨.operation o.id, i, .value (.result o.id i)⟩

/-- The id of an occurrence, or one of the values that it reads or yields. -/
inductive Has (m : Module) : Node → Prop where
  | operation {o : Operation} (occurs : m.Occurs o) : Has m (.operation o.id)
  | input {o : Operation} {v : Value} (occurs : m.Occurs o) (reads : v ∈ o.inputs) :
      Has m (.value v)
  | output {o : Operation} {i : Nat} (occurs : m.Occurs o) (yields : i < o.outputCount) :
      Has m (.value (.result o.id i))

def OutputCounts (m : Module) (id : OperationId) : Set Nat :=
  { n | ∃ o, m.Occurs o ∧ o.id = id ∧ n = o.outputCount }

/-- No occurrence of the id has a greater address. -/
def Last (m : Module) (id : OperationId) (o : Operation) : Prop :=
  o.id = id ∧ ∃ a, m.at? a = some o ∧
    ∀ b other, a < b → m.at? b = some other → other.id ≠ id

theorem exists_isGreatest_outputCounts {m : Module} {id : OperationId}
    (h : m.Has (.operation id)) : ∃ n, IsGreatest (m.OutputCounts id) n := by
  obtain ⟨o, ho, hid⟩ : ∃ o, m.Occurs o ∧ o.id = id := by
    cases h with
    | operation occurs => exact ⟨_, occurs, rfl⟩
  let counts : Finset Nat := ((m.occurrences.filter (·.id = id)).map (·.outputCount)).toFinset
  have same : (counts : Set Nat) = m.OutputCounts id := by
    ext n
    simp [counts, OutputCounts, mem_occurrences, and_assoc, eq_comm]
  have nonempty : counts.Nonempty := by
    refine ⟨o.outputCount, ?_⟩
    rw [← Finset.mem_coe, same]
    exact ⟨o, ho, hid, rfl⟩
  exact ⟨_, same ▸ counts.isGreatest_max' nonempty⟩

end Module

/-! ## Counting -/

theorem OrdSet.size_eq_ncard {κ : Type} [Key κ] (s : OrdSet κ) (members : Set κ)
    (h : ∀ a, a ∈ s ↔ a ∈ members) : s.size = members.ncard := by
  classical
  have same : members = (s.toList.toFinset : Set κ) := by
    ext a
    rw [← h]
    simp [OrdSet.mem_def]
  rw [same, Set.ncard_coe_finset, List.toFinset_card_of_nodup s.nodup_toList]
  rfl

namespace FlowGraph

theorem mem_edges_ofModule {m : Module} {e : Edge} : e ∈ (ofModule m).edges ↔ m.Carries e := by
  rw [ofModule, mem_edges_ofOperations]
  constructor
  · rintro ⟨o, ho, he⟩
    rcases mem_edgesOf.mp he with ⟨i, v, hv, rfl⟩ | ⟨i, hi, rfl⟩
    · exact .input (Module.mem_occurrences.mp ho) hv
    · exact .output (Module.mem_occurrences.mp ho) hi
  · intro h
    cases h with
    | input occurs reads =>
        exact ⟨_, Module.mem_occurrences.mpr occurs,
          mem_edgesOf.mpr (.inl ⟨_, _, reads, rfl⟩)⟩
    | output occurs yields =>
        exact ⟨_, Module.mem_occurrences.mpr occurs, mem_edgesOf.mpr (.inr ⟨_, yields, rfl⟩)⟩

theorem mem_nodes_ofModule {m : Module} {n : Node} : n ∈ (ofModule m).nodes ↔ m.Has n := by
  rw [ofModule, mem_nodes_ofOperations]
  constructor
  · rintro ⟨o, ho, rfl | ⟨v, hv | hv, rfl⟩⟩
    · exact .operation (Module.mem_occurrences.mp ho)
    · exact .input (Module.mem_occurrences.mp ho) hv
    · obtain ⟨i, hi, rfl⟩ := mem_outputs.mp hv
      exact .output (Module.mem_occurrences.mp ho) hi
  · intro h
    cases h with
    | operation occurs => exact ⟨_, Module.mem_occurrences.mpr occurs, .inl rfl⟩
    | input occurs reads =>
        exact ⟨_, Module.mem_occurrences.mpr occurs, .inr ⟨_, .inl reads, rfl⟩⟩
    | output occurs yields =>
        exact ⟨_, Module.mem_occurrences.mpr occurs,
          .inr ⟨_, .inr (mem_outputs.mpr ⟨_, yields, rfl⟩), rfl⟩⟩

theorem edges_size_ofModule (m : Module) :
    (ofModule m).edges.size = { e | m.Carries e }.ncard :=
  OrdSet.size_eq_ncard _ _ fun _ => mem_edges_ofModule

theorem nodes_size_ofModule (m : Module) :
    (ofModule m).nodes.size =
      { id | m.Has (.operation id) }.ncard + { v | m.Has (.value v) }.ncard := by
  have split : { n | m.Has n } = Node.operation '' { id | m.Has (.operation id) } ∪
      Node.value '' { v | m.Has (.value v) } := by
    ext n
    cases n <;> simp
  have finite : { n | m.Has n }.Finite := by
    have listed : { n | m.Has n } = { n | n ∈ (ofModule m).nodes.toList } := by
      ext n
      exact mem_nodes_ofModule.symm
    rw [listed]
    exact List.finite_toSet _
  rw [OrdSet.size_eq_ncard _ { n | m.Has n } fun _ => mem_nodes_ofModule, split]
  rw [split, Set.finite_union] at finite
  rw [Set.ncard_union_eq _ finite.1 finite.2,
    Set.ncard_image_of_injective _ fun _ _ => Node.operation.inj,
    Set.ncard_image_of_injective _ fun _ _ => Node.value.inj]
  rw [Set.disjoint_left]
  rintro n ⟨id, -, rfl⟩ ⟨v, -, h⟩
  cases h

/-! ## What leaves a node -/

def leaving (g : FlowGraph) (node : Node) : List (Nat × Node) :=
  (g.edges.toList.filter (·.source = node)).map fun e => (e.index, e.target)

theorem leaving_ordered (g : FlowGraph) (node : Node) :
    (g.leaving node).Pairwise fun d e => Key.lt d e = true := by
  rw [leaving, List.pairwise_map]
  refine (g.edges.ordered.filter _).imp_of_mem fun {d e} hd he hlt => ?_
  have hsource : ∀ e, e ∈ g.edges.toList.filter (·.source = node) → e.source = node := by
    intro e he
    simpa using (List.mem_filter.mp he).2
  have hrank : Key.lt d.rank e.rank = true := hlt
  simpa [Edge.rank, hsource d hd, hsource e he, Key.lt, Key.irrefl] using hrank

theorem mem_leaving {m : Module} {node target : Node} {i : Nat} :
    (i, target) ∈ (ofModule m).leaving node ↔ m.Carries ⟨node, i, target⟩ := by
  simp only [leaving, List.mem_map, List.mem_filter, decide_eq_true_eq, ← OrdSet.mem_def,
    mem_edges_ofModule, Prod.mk.injEq]
  constructor
  · rintro ⟨e, ⟨he, rfl⟩, rfl, rfl⟩
    exact he
  · intro h
    exact ⟨_, ⟨h, rfl⟩, rfl, rfl⟩

theorem outEdges_of_has {m : Module} {node : Node} (h : m.Has node) :
    (ofModule m).outEdges node = .ok ((ofModule m).leaving node) :=
  if_pos (OrdSet.contains_iff.mpr (mem_nodes_ofModule.mpr h))

theorem outEdges_of_not_has {m : Module} {node : Node} (h : ¬ m.Has node) :
    (ofModule m).outEdges node = .error (.missingNode node) :=
  if_neg fun known => h (mem_nodes_ofModule.mp (OrdSet.contains_iff.mp known))

end FlowGraph

/-! ## The order of arrival -/

/-- The same graph with its nodes and edges in the order in which they were added. Two nodes may be
joined at several positions, and a node or an edge that is there is not added again. -/
structure Multigraph where
  nodes : List Node := []
  edges : List Edge := []

namespace Multigraph

def ensureNode (a : Multigraph) (n : Node) : Multigraph :=
  if n ∈ a.nodes then a else { a with nodes := a.nodes ++ [n] }

def addEdge (a : Multigraph) (e : Edge) : Multigraph :=
  let b := (a.ensureNode e.source).ensureNode e.target
  let joining := b.edges.filter fun d => d.source = e.source ∧ d.target = e.target
  if joining.any (·.index = e.index) then b else { b with edges := b.edges ++ [e] }

def addOperation (a : Multigraph) (o : Operation) : Multigraph :=
  (FlowGraph.edgesOf o).foldl addEdge (a.ensureNode (.operation o.id))

def ofOperations (operations : List Operation) : Multigraph :=
  operations.foldl addOperation {}

def outEdges (a : Multigraph) (node : Node) : Except Fault (List (Nat × Node)) :=
  if node ∈ a.nodes then
    .ok (((a.edges.filter (·.source = node)).map fun e => (e.index, e.target)).mergeSort
      fun d e => !Key.lt e d)
  else .error (.missingNode node)

structure Lists (a : Multigraph) (g : FlowGraph) : Prop where
  nodes : a.nodes.Perm g.nodes.toList
  edges : a.edges.Perm g.edges.toList

variable {a : Multigraph} {g : FlowGraph}

theorem nodes_ensureNode (a : Multigraph) (n : Node) :
    (a.ensureNode n).nodes = if n ∈ a.nodes then a.nodes else a.nodes ++ [n] := by
  unfold ensureNode
  split <;> rfl

theorem edges_ensureNode (a : Multigraph) (n : Node) : (a.ensureNode n).edges = a.edges := by
  unfold ensureNode
  split <;> rfl

theorem any_joining_iff {edges : List Edge} {e : Edge} :
    (edges.filter fun d => d.source = e.source ∧ d.target = e.target).any (·.index = e.index) =
      true ↔ e ∈ edges := by
  simp only [List.any_eq_true, List.mem_filter, decide_eq_true_eq]
  constructor
  · rintro ⟨⟨source, index, target⟩, ⟨hd, rfl, rfl⟩, rfl⟩
    exact hd
  · intro he
    exact ⟨e, ⟨he, rfl, rfl⟩, rfl⟩

theorem nodes_addEdge (a : Multigraph) (e : Edge) :
    (a.addEdge e).nodes = ((a.ensureNode e.source).ensureNode e.target).nodes := by
  simp only [addEdge]
  split <;> rfl

theorem edges_addEdge (a : Multigraph) (e : Edge) :
    (a.addEdge e).edges = if e ∈ a.edges then a.edges else a.edges ++ [e] := by
  simp only [addEdge, any_joining_iff, edges_ensureNode]
  split <;> simp only [edges_ensureNode]

theorem Lists.ensureNode (h : a.Lists g) (n : Node) :
    (a.ensureNode n).Lists { g with nodes := g.nodes.insert n } where
  nodes := nodes_ensureNode a n ▸ OrdSet.perm_concat h.nodes n
  edges := edges_ensureNode a n ▸ h.edges

theorem Lists.addEdge (h : a.Lists g) (e : Edge) : (a.addEdge e).Lists (g.addEdge e) where
  nodes := nodes_addEdge a e ▸ ((h.ensureNode e.source).ensureNode e.target).nodes
  edges := edges_addEdge a e ▸ OrdSet.perm_concat h.edges e

theorem Lists.foldl_addEdge (h : a.Lists g) (es : List Edge) :
    (es.foldl Multigraph.addEdge a).Lists (es.foldl FlowGraph.addEdge g) := by
  induction es generalizing a g with
  | nil => exact h
  | cons e es ih => exact ih (h.addEdge e)

theorem Lists.addOperation (h : a.Lists g) (o : Operation) :
    (a.addOperation o).Lists (g.addOperation o) := by
  have hnode := h.ensureNode (.operation o.id)
  apply Lists.foldl_addEdge
  exact ⟨hnode.nodes, hnode.edges⟩

theorem lists_ofOperations (ops : List Operation) :
    (ofOperations ops).Lists (FlowGraph.ofOperations ops) := by
  induction ops using List.reverseRecOn with
  | nil => exact ⟨.nil, .nil⟩
  | append_singleton ops o ih =>
      simp only [ofOperations, FlowGraph.ofOperations, List.foldl_concat]
      exact ih.addOperation o

theorem Lists.outEdges_eq (h : a.Lists g) (node : Node) : a.outEdges node = g.outEdges node := by
  have hnode : node ∈ a.nodes ↔ g.contains node = true :=
    h.nodes.mem_iff.trans OrdSet.contains_iff.symm
  have hleaving := Key.mergeSort_eq_of_perm
    ((h.edges.filter (·.source = node)).map fun e => (e.index, e.target)) (g.leaving_ordered node)
  unfold Multigraph.outEdges FlowGraph.outEdges
  simp only [hnode, hleaving]

/-- Adding nodes and edges one at a time and sorting what leaves a node gives the same counts and
the same answers. -/
theorem answers_ofModule (m : Module) :
    (ofOperations m.occurrences).nodes.length = (FlowGraph.ofModule m).nodes.size ∧
      (ofOperations m.occurrences).edges.length = (FlowGraph.ofModule m).edges.size ∧
        (ofOperations m.occurrences).outEdges = (FlowGraph.ofModule m).outEdges :=
  have lists := lists_ofOperations m.occurrences
  ⟨lists.nodes.length_eq, lists.edges.length_eq, funext lists.outEdges_eq⟩

end Multigraph

namespace FlowGraph

/-! ## Readers and products -/

theorem lt_operation_iff {i j : Nat} {a b : OperationId} :
    Key.lt (i, Node.operation a) (j, Node.operation b) = true ↔
      Prod.Lex (· < ·) (· < ·) (i, a) (j, b) := by
  have hnode : Key.lt (Node.operation a) (Node.operation b) = decide (a < b) := by
    simp only [Key.lt, Node.rank, lt_irrefl, decide_false, Bool.false_or, Bool.and_false,
      Bool.or_false, Key.same_self, Bool.true_and]
    rfl
  rw [Prod.lex_def, ← decide_eq_true_iff (p := a < b), ← hnode]
  simp [Key.lt]

theorem readers_map (l : List (Nat × OperationId)) :
    readers (l.map fun e => (e.1, .operation e.2)) = .ok l := by
  induction l with
  | nil => rfl
  | cons e l ih =>
      rw [List.map_cons, readers, ih]
      rfl

theorem products_map (id : OperationId) (positions : List Nat) :
    products (positions.map fun i => (i, .value (.result id i))) =
      .ok (positions.map fun i => (i, .result id i)) := by
  induction positions with
  | nil => rfl
  | cons i positions ih =>
      rw [List.map_cons, products, ih]
      rfl

theorem exists_readers {m : Module} (v : Value) :
    ∃ l : List (Nat × OperationId),
      (ofModule m).leaving (.value v) = l.map fun e => (e.1, .operation e.2) := by
  have all : ∀ e, e ∈ (ofModule m).leaving (.value v) →
      ∃ d : Nat × OperationId, e = (d.1, .operation d.2) := by
    rintro ⟨i, target⟩ he
    have carried := mem_leaving.mp he
    cases carried with
    | input occurs reads => exact ⟨(i, _), rfl⟩
  choose! back hback using all
  refine ⟨((ofModule m).leaving (.value v)).map back, ?_⟩
  rw [List.map_map]
  exact (List.map_id _).symm.trans (List.map_congr_left hback)

theorem leaving_operation {m : Module} {id : OperationId} {n : Nat}
    (greatest : IsGreatest (m.OutputCounts id) n) :
    (ofModule m).leaving (.operation id) =
      (List.range n).map fun i => (i, .value (.result id i)) := by
  refine OrdSet.eq_of_ordered (leaving_ordered _ _) ?_ ?_
  · rw [List.pairwise_map]
    exact List.pairwise_lt_range.imp fun hlt => by simp [Key.lt, hlt]
  · rintro ⟨i, target⟩
    rw [mem_leaving, List.mem_map]
    constructor
    · intro carried
      cases carried with
      | output occurs yields =>
          have hle := greatest.2 ⟨_, occurs, rfl, rfl⟩
          exact ⟨i, List.mem_range.mpr (Nat.lt_of_lt_of_le yields hle), rfl⟩
    · rintro ⟨j, hj, e⟩
      obtain ⟨o, ho, rfl, rfl⟩ := greatest.1
      cases e
      exact .output ho (List.mem_range.mp hj)

/-! ## Lookup -/

theorem lookup_last {ops : List Operation} {id : OperationId} {o : Operation}
    (h : (ofOperations ops).lookup.find? id = some o) :
    ∃ before after, ops = before ++ o :: after ∧ ∀ other, other ∈ after → other.id ≠ id := by
  rw [lookup_ofOperations] at h
  exact ((find?_reverse_eq_some_iff Operation.id).mp h).2

theorem last_of_lookup {m : Module} {id : OperationId} {o : Operation}
    (h : (ofModule m).lookup.find? id = some o) : m.Last id o := by
  obtain ⟨before, after, split, hafter⟩ := lookup_last h
  obtain ⟨places, enumerated⟩ := m.exists_places
  rw [split] at enumerated
  obtain ⟨a, ha, hgreater⟩ := enumerated.after
  exact ⟨(mem_of_lookup h).2, a, ha,
    fun b other hlt hb => hafter other (hgreater b other hlt hb)⟩

theorem operations_ofModule (m : Module) :
    List.Forall₂ m.Last (ofModule m).order (ofModule m).operations := by
  have each : ∀ ids : List OperationId, (∀ id, id ∈ ids → id ∈ m.occurrences.map (·.id)) →
      List.Forall₂ m.Last ids (ids.filterMap (ofModule m).lookup.find?) := by
    intro ids
    induction ids with
    | nil => exact fun _ => .nil
    | cons id ids ih =>
        intro h
        obtain ⟨o, ho⟩ := exists_lookup (h id List.mem_cons_self)
        have hfind : (ofModule m).lookup.find? id = some o := ho
        rw [List.filterMap_cons_some hfind]
        exact .cons (last_of_lookup hfind) (ih fun id' hid' => h id' (List.mem_cons_of_mem _ hid'))
  refine each _ fun id hid => ?_
  rw [ofModule, order_ofOperations] at hid
  exact hid

/-! ## The whole graph -/

/-- The graph is the dataflow relation of the module. -/
structure Describes (g : FlowGraph) (m : Module) : Prop where
  /-- Ids are listed in the order of addresses, every occurrence once. -/
  order : ∃ places : List (List Nat), places.Pairwise (· < ·) ∧
    (∀ a, a ∈ places ↔ (m.at? a).isSome = true) ∧
      g.order.map some = places.map fun a => (m.at? a).map (·.id)
  /-- Wherever an id is listed, its last occurrence stands for it. -/
  operations : List.Forall₂ m.Last g.order g.operations
  /-- The readers of a value that occurs, in increasing order, each position once. -/
  uses : ∀ v, m.Has (.value v) → ∃ readers, g.uses v = .ok readers ∧
    readers.Pairwise (Prod.Lex (· < ·) (· < ·)) ∧
      ∀ i id, (i, id) ∈ readers ↔ ∃ o, m.Occurs o ∧ o.id = id ∧ o.inputs[i]? = some v
  /-- The results of an id, up to the largest number of outputs that it occurs with. -/
  results : ∀ id, m.Has (.operation id) → ∃ n, IsGreatest (m.OutputCounts id) n ∧
    g.results id = .ok ((List.range n).map fun i => (i, .result id i))
  edgeCount : g.edges.size = { e | m.Carries e }.ncard
  nodeCount : g.nodes.size =
    { id | m.Has (.operation id) }.ncard + { v | m.Has (.value v) }.ncard
  /-- What leaves a node that occurs, in increasing order. -/
  outEdges : ∀ node, m.Has node → ∃ leaving, g.outEdges node = .ok leaving ∧
    leaving.Pairwise (fun d e => Key.lt d e = true) ∧
      ∀ i target, (i, target) ∈ leaving ↔ m.Carries ⟨node, i, target⟩
  /-- Only a node that does not occur is a fault. -/
  missing : ∀ node, (∃ fault, g.outEdges node = .error fault) ↔ ¬ m.Has node
  /-- No edge leads where it should not. -/
  expected : (∀ v, g.uses v ≠ .error .unexpectedEdge) ∧
    ∀ id, g.results id ≠ .error .unexpectedEdge

theorem uses_ofModule {m : Module} {v : Value} (h : m.Has (.value v)) :
    ∃ readers, (ofModule m).uses v = .ok readers ∧
      readers.Pairwise (Prod.Lex (· < ·) (· < ·)) ∧
        ∀ i id, (i, id) ∈ readers ↔
          ∃ o, m.Occurs o ∧ o.id = id ∧ o.inputs[i]? = some v := by
  obtain ⟨l, hl⟩ := exists_readers (m := m) v
  refine ⟨l, ?_, ?_, ?_⟩
  · rw [uses, outEdges_of_has h, hl]
    exact readers_map l
  · have ordered := leaving_ordered (ofModule m) (.value v)
    rw [hl, List.pairwise_map] at ordered
    exact ordered.imp lt_operation_iff.mp
  · intro i id
    have listed : (i, id) ∈ l ↔ (i, Node.operation id) ∈ (ofModule m).leaving (.value v) := by
      simp [hl]
    rw [listed, mem_leaving]
    constructor
    · intro carried
      cases carried with
      | input occurs reads => exact ⟨_, occurs, rfl, reads⟩
    · rintro ⟨o, ho, rfl, reads⟩
      exact .input ho reads

theorem results_ofModule {m : Module} {id : OperationId} (h : m.Has (.operation id)) :
    ∃ n, IsGreatest (m.OutputCounts id) n ∧
      (ofModule m).results id = .ok ((List.range n).map fun i => (i, .result id i)) := by
  obtain ⟨n, greatest⟩ := Module.exists_isGreatest_outputCounts h
  refine ⟨n, greatest, ?_⟩
  rw [results, outEdges_of_has h, leaving_operation greatest]
  exact products_map id (List.range n)

theorem describes_ofModule (m : Module) : (ofModule m).Describes m where
  order := by
    obtain ⟨places, h⟩ := m.exists_places
    refine ⟨places, h.ordered, fun a => h.mem_iff, ?_⟩
    have found := congrArg (List.map (Option.map Operation.id)) h.found
    rw [List.map_map, List.map_map] at found
    rw [ofModule, order_ofOperations, List.map_map]
    exact found.symm
  operations := operations_ofModule m
  uses _ := uses_ofModule
  results _ := results_ofModule
  edgeCount := edges_size_ofModule m
  nodeCount := nodes_size_ofModule m
  outEdges node h := ⟨_, outEdges_of_has h, leaving_ordered _ _, fun _ _ => mem_leaving⟩
  missing node := by
    constructor
    · rintro ⟨fault, hfault⟩ h
      rw [outEdges_of_has h] at hfault
      cases hfault
    · intro h
      exact ⟨_, outEdges_of_not_has h⟩
  expected := by
    constructor
    · intro v hv
      by_cases h : m.Has (.value v)
      · obtain ⟨readers, hreaders, -⟩ := uses_ofModule h
        rw [hreaders] at hv
        cases hv
      · rw [uses, outEdges_of_not_has h] at hv
        cases hv
    · intro id hid
      by_cases h : m.Has (.operation id)
      · obtain ⟨n, -, hn⟩ := results_ofModule h
        rw [hn] at hid
        cases hid
      · rw [results, outEdges_of_not_has h] at hid
        cases hid

end FlowGraph

end TagFlow
