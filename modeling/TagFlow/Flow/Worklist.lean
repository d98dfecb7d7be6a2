import TagFlow.Flow.Graph

/-! # Solving an analysis by a worklist

An analysis gives every value a state and computes the states of an operation's
outputs from those of its inputs. Values that no operation produces start in the
initial state. Operations wait in a queue, each at most once; a new state is joined
to the one already there, and the readers of a value queue up when its state has
changed. A value without a state counts as bottom.
-/

namespace TagFlow

/-- `height` bounds how often the state of one value can change by joining. -/
structure Analysis (σ : Type) where
  bottom : σ
  join : σ → σ → σ
  initial : σ
  height : Nat
  transfer : Operation → List σ → Except Fault (List σ)

abbrev States (σ : Type) := OrdMap Value σ

namespace Worklist

/-- The states found so far and the operations waiting, first come first served. -/
structure Progress (σ : Type) where
  states : States σ := .empty
  queue : List OperationId := []

def enqueue (queue : List OperationId) (id : OperationId) : List OperationId :=
  if id ∈ queue then queue else queue ++ [id]

variable {σ : Type}

def wake (g : FlowGraph) (p : Progress σ) (v : Value) : Except Fault (Progress σ) := do
  let uses ← g.uses v
  return { p with queue := uses.foldl (fun queue use => enqueue queue use.2) p.queue }

/-- A value from outside gets the initial state once. -/
def seedInput (a : Analysis σ) (g : FlowGraph) (p : Progress σ) (v : Value) :
    Except Fault (Progress σ) :=
  if v.isResult || p.states.contains v then .ok p
  else wake g { p with states := p.states.insert v a.initial } v

def seedOperation (a : Analysis σ) (g : FlowGraph) (p : Progress σ) (o : Operation) :
    Except Fault (Progress σ) :=
  let p := if o.inputs.isEmpty then { p with queue := enqueue p.queue o.id } else p
  o.inputs.foldlM (seedInput a g) p

def seed (a : Analysis σ) (g : FlowGraph) : Except Fault (Progress σ) :=
  g.operations.foldlM (seedOperation a g) {}

def stateOf (a : Analysis σ) (states : States σ) (v : Value) : σ :=
  (states.find? v).getD a.bottom

/-- Evaluations that are enough to empty the queue: every operation once, and once
more for each change of each value. -/
def fuel (a : Analysis σ) (g : FlowGraph) : Nat :=
  g.order.length * (1 + g.nodes.size * a.height) + 1

variable [DecidableEq σ]

def update (a : Analysis σ) (g : FlowGraph) (p : Progress σ) (v : Value) (new : σ) :
    Except Fault (Progress σ) :=
  let old := stateOf a p.states v
  let joined := a.join old new
  if old = joined then
    if p.states.contains v then .ok p
    else .ok { p with states := p.states.insert v joined }
  else wake g { p with states := p.states.insert v joined } v

def updateAll (a : Analysis σ) (g : FlowGraph) (p : Progress σ) (o : Operation) (index : Nat) :
    List σ → Except Fault (Progress σ)
  | [] => .ok p
  | new :: rest => do
      let p ← update a g p (.result o.id index) new
      updateAll a g p o (index + 1) rest

def evaluate (a : Analysis σ) (g : FlowGraph) (p : Progress σ) (id : OperationId) :
    Except Fault (Progress σ) := do
  let o ← g.operation id
  let new ← a.transfer o (o.inputs.map (stateOf a p.states))
  if new.length = o.outputCount then updateAll a g p o 0 new
  else .error (.resultCount new.length o.operator o.outputCount)

/-- At most `fuel` evaluations, ending early when the queue is empty. -/
def run (a : Analysis σ) (g : FlowGraph) : Nat → Progress σ → Except Fault (Progress σ)
  | 0, p => .ok p
  | fuel + 1, p =>
      match p.queue with
      | [] => .ok p
      | id :: rest => do
          let p ← evaluate a g { p with queue := rest } id
          run a g fuel p

/-- The states of all values that the analysis reaches. -/
def solve (a : Analysis σ) (g : FlowGraph) : Except Fault (States σ) := do
  let start ← seed a g
  let done ← run a g (fuel a g) start
  return done.states

end Worklist

end TagFlow
