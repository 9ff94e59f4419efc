import Octet.CommandLine.Execution

/-! # The program

Reads and writes real files, prints the report of a command and gives its exit code. A command line
that is no command has the exit code two.
-/

namespace Octet

def fileError (e : IO.Error) : FileError :=
  match e with
  | .noFileOrDirectory _ _ _ => .notFound
  | .inappropriateType _ 20 _ => .notDirectory
  | .inappropriateType _ _ _ => .isDirectory
  | e => .other (toString e)

/-- The system is asked for files by texts only. -/
def unnamed : FileError := .other "the name of the file is not valid UTF-8"

def realFiles : FileAccess IO where
  read path := do
    let some name := path.text? | return .error unnamed
    try return .ok (← IO.FS.readBinFile (String.ofList name))
    catch e => return .error (fileError e)
  write path content := do
    let some name := path.text? | return .error unnamed
    try
      IO.FS.writeBinFile (String.ofList name) content
      return .ok ()
    catch e => return .error (fileError e)

def usage : String :=
  "Usage: octet build INPUT [-o PATH] [-v]\n" ++
  "       octet run INPUT [--max-clocks N] [--config PATH] [--memory-bits N] [--range-prefix BITS]\n"

end Octet

def main (args : List String) : IO UInt32 := do
  match Octet.Command.parse? (args.map fun arg => .ofText arg.toList) with
  | none =>
    IO.eprint Octet.usage
    return 2
  | some command =>
    let report ← command.execute Octet.realFiles
    IO.eprint report.errorOutput
    IO.print report.output
    return .ofNat report.exitCode
