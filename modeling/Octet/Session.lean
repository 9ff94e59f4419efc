import Octet.Assembly.Compilation
import Octet.Machine.Run
import Octet.Memory

/-! # Sessions

A session is a machine and the last compilation. A restart loads that compilation into the restarted
machine; if it has no image, the machine stays as it is.
-/

namespace Octet

/-- Restarts the machine with the image of a compilation. Without one it does not touch the machine. -/
def Machine.restartWith {δ : Type} [Device δ] (m : Machine δ) (c : Compilation) :
    Except ExportError StepReport × Machine δ :=
  match c.image with
  | .ok image =>
    let (report, m) := m.restart.load image
    (.ok report, m)
  | .error e => (.error e, m)

structure Session (δ : Type) where
  machine : Machine δ
  compilation : Compilation

namespace Session

variable {δ : Type}

def ofMachine (machine : Machine δ) : Session δ := ⟨machine, Octet.compile []⟩

/-- A session on a machine with one memory that has a cell for every address. -/
def standard : Session Memory := ofMachine (.ofDevices [.full])

def compile (s : Session δ) (source : Text) : Session δ :=
  { s with compilation := Octet.compile source }

variable [Device δ]

def restart (s : Session δ) : Except ExportError (StepReport × Session δ) :=
  let (result, machine) := s.machine.restartWith s.compilation
  result.map fun report => (report, { s with machine })

def clock (s : Session δ) : StepReport × Session δ :=
  let (report, machine) := s.machine.clock
  (report, { s with machine })

end Session

end Octet
