import TagFlow.Policy.Compile
import TagFlow.Policy.Egress
import TagFlow.Policy.Privacy
import TagFlow.Policy.Rescan
import TagFlow.Program.Listing
import TagFlow.Scenario.Program

/-! # Sessions

A session holds a scenario and, once it is built, its program. Checking builds the program
if needed; a program that has been built stays, whatever the check says.
-/

namespace TagFlow

structure Session where
  scenario : Scenario
  built : Option Program := none

namespace Session

def program (s : Session) : Except Fault Program :=
  match s.built with
  | some p => .ok p
  | none => .error .programNotBuilt

def build (s : Session) : Except Failure Session := do
  return { s with built := some (← s.scenario.program) }

/-- Builds the program unless there is one. -/
def ensureBuilt (s : Session) : Except Failure Session :=
  if s.built.isSome then .ok s else s.build

def listing (s : Session) : Except Fault String := do
  return (← s.program).root.listing

/-- Whether a module complies with a policy, by the checker that the scenario asks for;
`none` when the checker never ends. -/
def verdict (p : Scenario.PolicyDecl) (policy : Policy) (m : Module) :
    Except Fault (Option Bool) :=
  match p.checker with
  | .rescan => do Rescan.check (← RuleBook.ofRules p.rules) m
  | .egress => do return some (← Egress.check (← compile p.rules m p.seedTags) p.egress m)
  | .budget => do return some (← Privacy.check m policy)

/-- The verdict, and the session with its program. -/
def check (s : Session) : Except Failure (Option Bool) × Session :=
  match orError s.scenario.policy.policy, s.ensureBuilt with
  | .error e, _ => (.error e, s)
  | _, .error e => (.error e, s)
  | .ok policy, .ok s =>
      (orFault (do verdict s.scenario.policy policy (← s.program).root), s)

end Session

end TagFlow
