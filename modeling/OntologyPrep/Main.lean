import OntologyPrep.CommandLine

/-!
# The program

Arguments, files and exit codes of the system around `Command.run`.
-/

namespace OntologyPrep

/-- what the system says about a file that cannot be read -/
def ioReason : IO.Error → String
  | .noFileOrDirectory _ code details => details ++ " (os error " ++ toString code ++ ")"
  | .permissionDenied _ code details => details ++ " (os error " ++ toString code ++ ")"
  | .inappropriateType _ code details => details ++ " (os error " ++ toString code ++ ")"
  | e => toString e

/-- the text of a file of the system -/
def readFile : FileReader IO := fun path => do
  match ← (IO.FS.readBinFile path).toBaseIO with
  | .error e => return .error (ioReason e)
  | .ok bytes =>
    match String.fromUTF8? bytes with
    | some text => return .ok text
    | none => return .error "stream did not contain valid UTF-8"

/-- how the program is called -/
def usage : String :=
  "usage: preprocess FILE [--kb FILE]... [--config FILE] [--query] [--json]\n" ++
  "       clausify FILE\n"

/-- the exit code of a program that has come to no end of its own -/
def crashed : UInt32 := 101

end OntologyPrep

open OntologyPrep in
/-- the program -/
def main (arguments : List String) : IO UInt32 := do
  match Command.ofArguments arguments with
  | none =>
    (← IO.getStderr).putStr usage
    return 2
  | some command =>
    match ← command.run readFile with
    | none => return crashed
    | some report =>
      (← IO.getStdout).putStr report.output
      (← IO.getStderr).putStr report.errors
      return if report.success then 0 else 1
