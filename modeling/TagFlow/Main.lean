import TagFlow.CommandLine

/-! # The program -/

namespace TagFlow

def readError (path : String) : IO.Error → Error
  | .noFileOrDirectory _ _ _ => .missingFile path
  | .permissionDenied _ code details => .unreadable path s!"{details} (os error {code})"
  | .inappropriateType _ code details => .unreadable path s!"{details} (os error {code})"
  | e => .unreadable path (toString e)

def load (path : String) : IO (Except Error Scenario) := do
  try
    return Scenario.ofBytes path (← IO.FS.readBinFile path)
  catch e =>
    return .error (readError path e)

def report (arguments : List String) : IO CommandLine.Report := do
  match CommandLine.options? arguments with
  | none => return { ending := .misuse }
  | some options => return CommandLine.run options (← load options.scenario)

end TagFlow

def main (arguments : List String) : IO UInt32 := do
  let r ← TagFlow.report arguments
  IO.print r.output
  IO.eprint r.errors
  return r.exitCode.toUInt32
