import PaintOrder.Command.Arguments

/-!
# The program

Runs the command of the command line on the files of the system.
-/

open PaintOrder

/-- How deeply the splits of one partition may nest before the program gives up. -/
def splitNestingLimit : Nat := 1000000

/-- The reason that the system gives for refusing an access. -/
def refusal (error : IO.Error) : String :=
  match error with
  | .noFileOrDirectory _ code details => s!"{details} (os error {code})"
  | .permissionDenied _ code details => s!"{details} (os error {code})"
  | .inappropriateType _ code details => s!"{details} (os error {code})"
  | other => toString other

def systemFiles : FileAccess IO where
  read path := do
    try return .ok (← IO.FS.readBinFile path).data
    catch error => return .error (refusal error)
  write path data := do
    try return .ok (← IO.FS.writeBinFile path ⟨data⟩)
    catch error => return .error (refusal error)

def main (line : List String) : IO UInt32 := do
  match Command.ofArguments? line with
  | none =>
      IO.eprint Command.usage
      return 2
  | some command =>
      let outcome ← command.run splitNestingLimit systemFiles
      IO.print outcome.output
      IO.eprint outcome.errors
      return outcome.exitCode
