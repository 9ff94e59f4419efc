import Octet.CommandLine.Command
import Octet.CommandLine.Report
import Octet.Session

/-! # Carrying out commands

`Command.execute` reads the files that a command names, does its work and writes the file that it
makes. A source with errors ends the command before anything is written. A run reads its
configuration and makes its machine before it reads the source.
-/

namespace Octet

namespace Execution

variable {m : Type → Type} [Monad m]

def readText (files : FileAccess m) (path : Path) : m (Except CommandError Text) := do
  match ← files.read path with
  | .error e => return .error (.read path (.file e))
  | .ok content =>
    match String.fromUTF8? content with
    | some text => return .ok text.toList
    | none => return .error (.read path .notText)

def errorLines (c : Compilation) : List String :=
  let tokenLines (t : Token) : List String := t.errors.map fun e =>
    s!"line {t.line}: `" ++ String.ofList t.text ++ s!"`: {e.category}: {e.message}"
  c.errored.flatMap tokenLines ++ [c.summary.message]

def padded (width : Nat) (t : Text) : Text := List.replicate (width - t.length) ' ' ++ t

/-- The listing of a compilation, a line for each row, with addresses as four hexadecimal digits. -/
def listingLines (c : Compilation) : List String :=
  c.listing.map fun row =>
    let address := match row.address with
      | some a => (Numeral.fixed 16 4 a.toNat).map Char.toUpper
      | none => padded 4 []
    String.ofList (padded 4 (Numeral.decimal row.line) ++ ' ' :: address ++ ' ' :: ' ' :: row.text)

def compiled (source : Text) : Except Report (Compilation × Image) :=
  let c := compile source
  if c.hasErrors then .error ((Report.failure (.compile c.summary)).after (errorLines c))
  else match c.image with
  | .ok image => .ok (c, image)
  | .error e => .error (.failure (.image e))

def build (files : FileAccess m) (input : Path) (output : Option Path) (verbose : Bool) :
    m Report := do
  match ← readText files input with
  | .error e => return .failure e
  | .ok source =>
    match compiled source with
    | .error report => return report
    | .ok (c, image) =>
      let listing := if verbose then listingLines c else []
      let target := output.getD (Path.defaultOutput input)
      match ← files.write target (String.ofList image.render).toUTF8 with
      | .error e => return (Report.failure (.write target e)).after listing
      | .ok () =>
        let count := image.length
        let done := "Assembled " ++ String.ofList input.shown ++ s!" ({count} bytes) -> " ++
          String.ofList target.shown
        return ⟨[done], listing ++ [c.summary.message], none⟩

/-- Loads an image into the restarted machine and runs it: what the run has to say. -/
def runImage {δ : Type} [Device δ] (machine : Machine δ) (image : Image) (maxClocks : Nat) :
    Report :=
  let (loaded, machine) := machine.restart.load image
  let (outcome, machine) := machine.run maxClocks
  let lines := loaded.diagnostics.map ("[load] " ++ ·.message) ++
    outcome.diagnostics.map (fun (pc, d) => d.messageAt pc) ++ [machine.registers.text]
  match machine.state.fault? with
  | some _ => ⟨lines, [], some (.fault machine.registers.p)⟩
  | none =>
    let clocks := outcome.clocks
    ⟨lines, if outcome.running then [s!"stopped after {clocks} clocks without halting"] else [],
      none⟩

def readConfig (files : FileAccess m) : ConfigSource → m (Except CommandError MachineConfig)
  | .given config => return .ok config
  | .file path => do
    match ← readText files path with
    | .error e => return .error e
    | .ok text =>
      match MachineConfig.parse? text with
      | some config => return .ok config
      | none => return .error (.configFile path)

def run (files : FileAccess m) (input : Path) (maxClocks : Nat) (source : ConfigSource) :
    m Report := do
  match ← readConfig files source with
  | .error e => return .failure e
  | .ok config =>
    match config.machine with
    | .error e => return .failure (.config e)
    | .ok machine =>
      match ← readText files input with
      | .error e => return .failure e
      | .ok source =>
        match compiled source with
        | .error report => return report
        | .ok (_, image) => return runImage machine image maxClocks

end Execution

def Command.execute {m : Type → Type} [Monad m] (files : FileAccess m) : Command → m Report
  | .build input output verbose => Execution.build files input output verbose
  | .run input maxClocks config => Execution.run files input maxClocks config

end Octet
