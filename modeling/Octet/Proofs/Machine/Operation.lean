import Octet.Machine.Run

/-! # Sequences of operations

What a host does to a machine, one operation after the other, and what it gets to see: the answer to
each operation, and the registers and the run state behind it.
-/

namespace Octet

inductive Operation where
  | clock
  | run (budget : Nat)
  | load (image : Image)
  | set (register : Register) (n : Nat)
  | restart
  | read (a : Address)
  | write (a : Address) (v : Byte)
deriving DecidableEq, Repr

inductive Answer where
  | report (report : StepReport)
  | outcome (outcome : RunOutcome)
  | set (result : Except RegisterError Unit)
  | restarted
  | read (transfer : Transfer Byte)
  | written (transfer : Transfer Unit)

structure Observation where
  answer : Answer
  registers : RegisterFile
  state : RunState

namespace Machine

variable {δ : Type} [Device δ]

/-- Carries out one operation. A register that cannot be set leaves the machine as it is. -/
def operate (m : Machine δ) : Operation → Answer × Machine δ
  | .clock =>
    let (report, m) := m.clock
    (.report report, m)
  | .run budget =>
    let (outcome, m) := m.run budget
    (.outcome outcome, m)
  | .load image =>
    let (report, m) := m.load image
    (.report report, m)
  | .set register n =>
    match m.set register n with
    | .ok m => (.set (.ok ()), m)
    | .error e => (.set (.error e), m)
  | .restart => (.restarted, m.restart)
  | .read a =>
    let (transfer, bus) := m.bus.read a
    (.read transfer, { m with bus })
  | .write a v =>
    let (transfer, bus) := m.bus.write a v
    (.written transfer, { m with bus })

/-- Carries out operations in order: what is seen after each of them, and the machine in the end. -/
def operateAll (m : Machine δ) : List Operation → List Observation × Machine δ
  | [] => ([], m)
  | op :: ops =>
    let (answer, m) := m.operate op
    let (seen, final) := m.operateAll ops
    (⟨answer, m.registers, m.state⟩ :: seen, final)

end Machine

end Octet
