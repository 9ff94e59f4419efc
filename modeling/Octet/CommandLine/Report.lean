import Octet.Assembly.Compilation
import Octet.ConfigError
import Octet.FileSystem

/-! # Reports

What a command has to say: lines for the two outputs, and the error that ended it, if one did. The
error is the last line of the error output, and it decides the exit code.
-/

namespace Octet

inductive ReadError where
  | file (e : FileError)
  | notText
deriving DecidableEq, Repr

def ReadError.message : ReadError → String
  | .file e => e.message
  | .notText => "stream did not contain valid UTF-8"

inductive CommandError where
  | read (path : Path) (e : ReadError)
  | write (path : Path) (e : FileError)
  | compile (summary : Summary)
  | image (e : ExportError)
  | config (e : ConfigError)
  | configFile (path : Path)
  | fault (p : Address)
deriving DecidableEq, Repr

def CommandError.message : CommandError → String
  | .read path e => "failed to read " ++ String.ofList path.shown ++ ": " ++ e.message
  | .write path e => "failed to write " ++ String.ofList path.shown ++ ": " ++ e.message
  | .compile summary => "compile failed: " ++ summary.message
  | .image e => e.message
  | .config e => "invalid machine config: " ++ e.message
  | .configFile path => "invalid machine config file " ++ String.ofList path.shown
  | .fault p => s!"machine halted on a fault at p={p}"

structure Report where
  outputLines : List String
  errorLines : List String
  error : Option CommandError
deriving DecidableEq, Repr

namespace Report

def failure (e : CommandError) : Report := ⟨[], [], some e⟩

/-- The report with lines before its own on the error output. -/
def after (r : Report) (lines : List String) : Report := { r with errorLines := lines ++ r.errorLines }

def exitCode (r : Report) : Nat := if r.error.isSome then 1 else 0

def joinLines (lines : List String) : String := String.join (lines.map (· ++ "\n"))

def output (r : Report) : String := joinLines r.outputLines

def errorOutput (r : Report) : String :=
  let last := match r.error with
    | some e => ["error: " ++ e.message]
    | none => []
  joinLines (r.errorLines ++ last)

end Report

end Octet
