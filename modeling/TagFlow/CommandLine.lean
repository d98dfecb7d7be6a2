import TagFlow.Scenario.Decode
import TagFlow.Scenario.Session

/-! # The command line

`--scenario PATH` or `--scenario=PATH` names the scenario and is needed exactly once, with a
path that is not empty. `--print-ir` asks for the listing of the program. Nothing else is
understood.
-/

namespace TagFlow

namespace CommandLine

structure Options where
  scenario : String
  listing : Bool := false
  deriving DecidableEq

/-- What the arguments have said so far. -/
structure Given where
  scenario : Option String := none
  listing : Bool := false
  deriving DecidableEq

/-- A scenario may be named once. -/
def Given.name? (g : Given) (path : String) : Option Given :=
  if g.scenario.isSome || path.isEmpty then none else some { g with scenario := some path }

/-- An argument of its own that could be an option is no path. -/
def isValue (argument : String) : Bool :=
  argument = "-" || argument.toList.head? ≠ some '-'

def read (g : Given) : List String → Option Given
  | [] => some g
  | "--" :: rest => if rest.isEmpty then some g else none
  | "--print-ir" :: rest => if g.listing then none else read { g with listing := true } rest
  | ["--scenario"] => none
  | "--scenario" :: path :: rest => do
      if isValue path then read (← g.name? path) rest else failure
  | argument :: rest => do
      let path ← Reference.dropFront? "--scenario=".toList argument.toList
      read (← g.name? (.ofList path)) rest

/-- `none` when the arguments are not understood. -/
def options? (arguments : List String) : Option Options := do
  let g ← read {} arguments
  return ⟨← g.scenario, g.listing⟩

/-! ## Running -/

inductive Ending where
  | misuse
  | failed (failure : Failure)
  | endless
  | compliant
  | nonCompliant
  deriving DecidableEq

/-- What a run has listed, and how it has ended. -/
structure Report where
  listing : String := ""
  ending : Ending
  deriving DecidableEq

def ending : Except Failure (Option Bool) → Ending
  | .error e => .failed e
  | .ok none => .endless
  | .ok (some true) => .compliant
  | .ok (some false) => .nonCompliant

/-- The program is built and listed before the policy is looked at. -/
def run (options : Options) (loaded : Except Error Scenario) : Report :=
  match (do (Session.mk (← orError loaded) none).build) with
  | .error e => { ending := .failed e }
  | .ok session =>
      let verdict := ending session.check.1
      if options.listing then
        match session.listing with
        | .ok text => ⟨text, verdict⟩
        | .error e => { ending := .failed (.fault e) }
      else { ending := verdict }

namespace Report

def exitCode (r : Report) : UInt8 :=
  match r.ending with
  | .compliant => 0
  | .nonCompliant | .endless | .failed (.error _) => 1
  | .misuse => 2
  | .failed (.fault _) => 101

def output (r : Report) : String :=
  match r.ending with
  | .compliant => r.listing ++ "compliant\n"
  | .nonCompliant => r.listing ++ "non-compliant\n"
  | _ => r.listing

def errors (r : Report) : String :=
  match r.ending with
  | .failed (.error e) => "Error Encountered: " ++ e.message ++ "\n"
  | .failed (.fault f) => f.message ++ "\n"
  | .misuse => "Usage: --scenario <PATH> [--print-ir]\n"
  | _ => ""

end Report

end CommandLine

end TagFlow
