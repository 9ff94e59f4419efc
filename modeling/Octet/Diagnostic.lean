import Octet.Word

/-! # Faults and diagnostics

A fault stops the machine; a diagnostic is what one clock has to say. How grave a diagnostic is
follows from what it reports: a halt is information, a fault is fatal, and the rest are warnings.
-/

namespace Octet

/-- The two kinds of transfer on a bus. -/
inductive Access where
  | read
  | write
deriving DecidableEq, Repr

def Access.verb : Access → String
  | .read => "read"
  | .write => "write"

inductive Fault where
  | noDeviceResponded (access : Access) (address : Address)
  | invalidInstruction (id : Byte)
deriving DecidableEq, Repr

def Fault.message : Fault → String
  | .noDeviceResponded access address =>
    let verb := access.verb
    s!"no device responded to {verb} at address {address}"
  | .invalidInstruction id => s!"invalid instruction {id}"

/-- The address whose transfer failed, if a transfer did. -/
def Fault.address? : Fault → Option Address
  | .noDeviceResponded _ address => some address
  | .invalidInstruction _ => none

inductive Severity where
  | info
  | warning
  | fatal
deriving DecidableEq, Repr

def Severity.label : Severity → String
  | .info => "INFO"
  | .warning => "WARN"
  | .fatal => "FATAL"

inductive Diagnostic where
  | halting
  | multipleResponders (access : Access) (address : Address) (count : Nat)
  | programCounterWrapped
  | stackPointerUnderflow
  | stackPointerOverflow
  | fault (f : Fault)
deriving DecidableEq, Repr

namespace Diagnostic

def severity : Diagnostic → Severity
  | .halting => .info
  | .fault _ => .fatal
  | _ => .warning

def isFatal (d : Diagnostic) : Bool := d.severity == .fatal

def event : Diagnostic → String
  | .halting => "halting"
  | .multipleResponders access address count =>
    let verb := access.verb
    s!"{count} devices responded to {verb} at address {address}; assuming simultaneous output"
  | .programCounterWrapped => "program counter overflowed"
  | .stackPointerUnderflow => "stack pointer underflowed"
  | .stackPointerOverflow => "stack pointer overflowed"
  | .fault f =>
    let text := f.message
    s!"{text}; the machine would hang here"

def message (d : Diagnostic) : String := d.severity.label ++ ": " ++ d.event

/-- The message with the address at which its clock began. -/
def messageAt (d : Diagnostic) (pc : Address) : String :=
  let text := d.message
  s!"[{pc}] {text}"

end Diagnostic

end Octet
