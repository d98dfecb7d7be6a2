import TagFlow.Label.Transfer

/-! # Checking labels at egress

A program complies when every input of every egress operation, nested ones included,
carries no secrecy tag. A value without a known label never reaches the egress.
-/

namespace TagFlow

namespace Egress

def harmless (labels : States Label) (v : Value) : Bool :=
  match labels.find? v with
  | some (.known secrecy _) => secrecy.isEmpty
  | _ => true

def complies (egress : List String) (g : FlowGraph) (labels : States Label) : Bool :=
  (g.operations.filter (·.operator ∈ egress)).all fun o => o.inputs.all (harmless labels)

def check (rules : RuleSet) (egress : List String) (m : Module) : Except Fault Bool := do
  let g := FlowGraph.ofModule m
  return complies egress g (← Worklist.solve rules.analysis g)

end Egress

end TagFlow
