import TagFlow.Program.Tree

/-! # The dataflow graph

Every input of an operation is an edge from the value to the operation, and every
output an edge from the operation to the value; an edge carries the position of the
input or output. Each operation and each value that occurs is a node, also without
edges out of it, so that asking about any other node is a fault.
-/

namespace TagFlow

structure Edge where
  source : Node
  index : Nat
  target : Node
  deriving DecidableEq

namespace Edge

def rank (e : Edge) : Node × Nat × Node := (e.source, e.index, e.target)

theorem rank_injective {d e : Edge} (h : d.rank = e.rank) : d = e := by
  cases d
  cases e
  simp_all [rank]

/-- Edges out of one node are ordered by position, then by target. -/
instance : Key Edge := Key.pullback rank rank_injective

end Edge

/-- When an id occurs twice, the later operation is the one looked up, while both
occurrences are in the order and the edges of both are in the graph. -/
structure FlowGraph where
  order : List OperationId := []
  lookup : OrdMap OperationId Operation := .empty
  nodes : OrdSet Node := .empty
  edges : OrdSet Edge := .empty

namespace FlowGraph

def addEdge (g : FlowGraph) (e : Edge) : FlowGraph :=
  { g with
    nodes := (g.nodes.insert e.source).insert e.target
    edges := g.edges.insert e }

/-- The edges of one operation: into it from its inputs, out of it to its outputs. -/
def edgesOf (o : Operation) : List Edge :=
  o.inputs.zipIdx.map (fun (v, i) => ⟨.value v, i, .operation o.id⟩) ++
    o.outputs.zipIdx.map (fun (v, i) => ⟨.operation o.id, i, .value v⟩)

def addOperation (g : FlowGraph) (o : Operation) : FlowGraph :=
  (edgesOf o).foldl addEdge
    { g with
      order := g.order ++ [o.id]
      lookup := g.lookup.insert o.id o
      nodes := g.nodes.insert (.operation o.id) }

def ofOperations (operations : List Operation) : FlowGraph :=
  operations.foldl addOperation {}

def ofModule (m : Module) : FlowGraph := ofOperations m.occurrences

def contains (g : FlowGraph) (node : Node) : Bool := g.nodes.contains node

/-- Edges out of a node as pairs of position and target, in order. -/
def outEdges (g : FlowGraph) (node : Node) : Except Fault (List (Nat × Node)) :=
  if g.contains node then
    .ok ((g.edges.toList.filter (·.source = node)).map fun e => (e.index, e.target))
  else .error (.missingNode node)

def readers : List (Nat × Node) → Except Fault (List (Nat × OperationId))
  | [] => .ok []
  | (index, .operation id) :: rest => do return (index, id) :: (← readers rest)
  | (_, .value _) :: _ => .error .unexpectedEdge

def products : List (Nat × Node) → Except Fault (List (Nat × Value))
  | [] => .ok []
  | (index, .value v) :: rest =>
      if v.isResult then do return (index, v) :: (← products rest)
      else .error .unexpectedEdge
  | (_, .operation _) :: _ => .error .unexpectedEdge

/-- The operations reading a value, with the positions they read it at. -/
def uses (g : FlowGraph) (v : Value) : Except Fault (List (Nat × OperationId)) := do
  readers (← g.outEdges (.value v))

/-- The values an operation produces, with their positions. -/
def results (g : FlowGraph) (id : OperationId) : Except Fault (List (Nat × Value)) := do
  products (← g.outEdges (.operation id))

def operation (g : FlowGraph) (id : OperationId) : Except Fault Operation :=
  match g.lookup.find? id with
  | some o => .ok o
  | none => .error .missingOperation

/-- All operations in order, nested ones included, as they are looked up. -/
def operations (g : FlowGraph) : List Operation := g.order.filterMap g.lookup.find?

end FlowGraph

end TagFlow
