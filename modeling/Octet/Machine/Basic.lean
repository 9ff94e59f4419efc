import Octet.Bus
import Octet.RegisterFile

/-! # Machines

A machine is its registers, its bus and whether it runs. Once halted it keeps the reason, and only a
restart lets it run again.
-/

namespace Octet

inductive HaltReason where
  | instruction
  | fault (f : Fault)
deriving DecidableEq, Repr

inductive RunState where
  | running
  | halted (reason : HaltReason)
deriving DecidableEq, Repr

namespace RunState

def isRunning : RunState → Bool
  | .running => true
  | .halted _ => false

def fault? : RunState → Option Fault
  | .halted (.fault f) => some f
  | _ => none

end RunState

structure Machine (δ : Type) where
  registers : RegisterFile
  bus : Bus δ
  state : RunState
deriving DecidableEq

/-- What one clock, or one load, has to say: the address it began at, its diagnostics in the order
in which they arose, and whether the machine runs on. -/
structure StepReport where
  pc : Address
  diagnostics : List Diagnostic
  running : Bool
deriving DecidableEq, Repr

def StepReport.isFatal (report : StepReport) : Bool := report.diagnostics.any (·.isFatal)

namespace Machine

variable {δ : Type}

/-- A machine at power-on with the given bus. -/
def ofBus (bus : Bus δ) : Machine δ := ⟨.initial, bus, .running⟩

def ofDevices (ds : List δ) : Machine δ := ofBus (.ofDevices ds)

def isRunning (m : Machine δ) : Bool := m.state.isRunning

def isHalted (m : Machine δ) : Bool := !m.isRunning

def set (m : Machine δ) (reg : Register) (n : Nat) : Except RegisterError (Machine δ) :=
  (m.registers.set reg n).map fun registers => { m with registers }

def setNamed (m : Machine δ) (name : Text) (n : Nat) : Except RegisterError (Machine δ) := do
  m.set (← Register.ofText name) n

/-- Registers and run state as at power-on, every device reset. -/
def restart [Device δ] : Machine δ → Machine δ
  | ⟨_, bus, _⟩ => ofBus bus.reset

end Machine

end Octet
