import TagFlow.Program.Fault

/-! # Policies

What a program has to comply with: rules about tags, or a privacy budget. A policy is
stated to other tools as facts of a relation.
-/

namespace TagFlow

/-- Privacy loss, or the most that may be lost. -/
structure Budget where
  epsilon : UInt64 := 0
  delta : UInt64 := 0
  deriving DecidableEq

namespace Budget

def fits (spent limit : Budget) : Bool :=
  spent.epsilon ≤ limit.epsilon && spent.delta ≤ limit.delta

def facts (b : Budget) : String :=
  "$EpsilonValue(" ++ toString b.epsilon.toNat ++ ")\n$DeltaValue(" ++
    toString b.delta.toNat ++ ")"

end Budget

inductive Policy where
  | sql (facts : String)
  | catchall (facts : String)
  | privacy (limit : Budget)
  deriving DecidableEq

namespace Policy

def factName : Policy → String
  | sql _ => "isSqlPolicyRule"
  | catchall _ => "isSqlPolicyRule"
  | privacy _ => "isDPParameter"

def facts : Policy → String
  | sql facts => facts
  | catchall facts => facts
  | privacy limit => limit.facts

end Policy

end TagFlow
