import Octet.Machine.Basic

/-! # Effects within one clock

A cycle is the machine at work: registers and bus as they stand, and the diagnostics raised so far.
An effect ends in a value or in a fault, and either way leaves the cycle as far as it came, so a
fault in the middle of an instruction keeps what went before it.
-/

namespace Octet

structure Cycle (δ : Type) where
  registers : RegisterFile
  bus : Bus δ
  raised : List Diagnostic

/-- An effect on a cycle, which a fault may cut short. -/
abbrev Effect (δ : Type) := EStateM Fault (Cycle δ)

namespace Effect

variable {δ : Type}

/-- The address of the stack page, in which the stack pointer counts. -/
def stackPage : Address := 0xFF00

def conclude {α : Type} (result : Except Fault α) (c : Cycle δ) :
    EStateM.Result Fault (Cycle δ) α :=
  match result with
  | .ok v => .ok v c
  | .error f => .error f c

def registers : Effect δ RegisterFile := fun c => .ok c.registers c

def modifyRegisters (f : RegisterFile → RegisterFile) : Effect δ Unit
  | ⟨rs, bus, raised⟩ => .ok () ⟨f rs, bus, raised⟩

def warn (condition : Bool) (d : Diagnostic) : Effect δ Unit
  | ⟨rs, bus, raised⟩ => .ok () ⟨rs, bus, if condition then raised ++ [d] else raised⟩

def ofOption {α : Type} (f : Fault) : Option α → Effect δ α
  | some v => pure v
  | none => throw f

variable [Device δ]

def read (a : Address) : Effect δ Byte
  | ⟨rs, bus, raised⟩ =>
    let (t, bus) := bus.read a
    conclude t.result ⟨rs, bus, raised ++ t.raised⟩

def write (a : Address) (v : Byte) : Effect δ Unit
  | ⟨rs, bus, raised⟩ =>
    let (t, bus) := bus.write a v
    conclude t.result ⟨rs, bus, raised ++ t.raised⟩

/-- Reads the byte at the program counter, which moves on even if nothing answers. -/
def fetch : Effect δ Byte
  | ⟨rs, bus, raised⟩ =>
    let (t, bus) := bus.read rs.p
    let next := rs.p + 1
    let wrapped := if next = 0 then [Diagnostic.programCounterWrapped] else []
    conclude t.result ⟨{ rs with p := next }, bus, raised ++ t.raised ++ wrapped⟩

/-- Writes at the stack pointer and then moves it down. -/
def push (v : Byte) : Effect δ Unit := do
  let rs ← registers
  write (stackPage + rs.s.toUInt16) v
  modifyRegisters fun rs => { rs with s := rs.s - 1 }
  warn (rs.s == 0) .stackPointerUnderflow

/-- Moves the stack pointer up and then reads there. -/
def pop : Effect δ Byte := do
  modifyRegisters fun rs => { rs with s := rs.s + 1 }
  let rs ← registers
  warn (rs.s == 0) .stackPointerOverflow
  read (stackPage + rs.s.toUInt16)

end Effect

end Octet
