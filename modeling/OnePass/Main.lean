import OnePass.CommandLine

/-!
# The program

Reads the command line and runs the command over the files of the machine.
-/

namespace OnePass.CommandLine

/-- Why a request to the machine failed, in its own words and with its number. -/
private def cause (e : IO.Error) : String :=
  match e with
  | .alreadyExists _ code details | .noFileOrDirectory _ code details
  | .permissionDenied _ code details | .inappropriateType _ code details
  | .resourceExhausted _ code details | .invalidArgument _ code details =>
    s!"{details} (os error {code})"
  | .otherError code details | .hardwareFault code details | .noSuchThing _ code details
  | .resourceBusy code details | .unsatisfiedConstraints code details
  | .illegalOperation code details | .timeExpired code details =>
    s!"{details} (os error {code})"
  | other => toString other

private def attempt (action : IO Unit) : IO (Except String Unit) :=
  try
    action
    return .ok ()
  catch e => return .error (cause e)

/-- The files of the machine. -/
def machineFiles : FileAccess IO where
  readText path :=
    try return String.fromUTF8? (← IO.FS.readBinFile path)
    catch _ => return none
  makeDirectory directory :=
    attempt (if directory = "" then pure () else IO.FS.createDirAll directory)
  writeText path content := attempt (IO.FS.writeFile path content)

end OnePass.CommandLine

open OnePass.CommandLine in
def main (arguments : List String) : IO UInt32 := do
  match Invocation.parse? arguments with
  | none =>
    IO.eprintln "usage: onepass [OPTIONS] (check PATH | compile PATH [--out-dir DIRECTORY])"
    return usageExitCode.toUInt32
  | some invocation =>
    let outcome ← invocation.run machineFiles
    IO.print outcome.stdout
    IO.eprint outcome.stderr
    return outcome.exitCode.toUInt32
