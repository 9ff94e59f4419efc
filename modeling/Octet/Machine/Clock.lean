import Octet.Arithmetic
import Octet.Machine.Cycle
import Octet.Opcode

/-! # The clock

One clock fetches an instruction and carries it out. What an instruction does to the registers alone
is a function on them (`RegisterFile.after`); only instructions with immediate bytes and those that
read or write the bus have an effect of their own. A fault or the halting instruction ends the clock
with its diagnostic, which is the last one.
-/

namespace Octet

/-- The registers after an instruction that does not use the bus. -/
def RegisterFile.after (rs : RegisterFile) : Opcode → RegisterFile
  | .ldb => { rs with b := rs.a }
  | .swp => { rs with a := rs.b, b := rs.a }
  | .ldh => { rs with h := rs.a }
  | .ldl => { rs with l := rs.a }
  | .sth => { rs with a := rs.h }
  | .stl => { rs with a := rs.l }
  | .ldq => { rs with q := rs.a }
  | .stq => { rs with a := rs.q }
  | .add => rs.accumulate (Arithmetic.add rs.a rs.b false)
  | .addc => rs.accumulate (Arithmetic.add rs.a rs.b rs.c)
  | .sub => rs.accumulate (Arithmetic.subtract rs.a rs.b false)
  | .subc => rs.accumulate (Arithmetic.subtract rs.a rs.b rs.c)
  | .shl => rs.accumulate (Arithmetic.shiftLeft rs.a 1)
  | .shlc => rs.accumulate (Arithmetic.shiftLeft rs.a (1 + rs.c.toNat))
  | .shr | .shrc => rs.accumulate (Arithmetic.shiftRight rs.a)
  | .and => { rs with a := rs.a &&& rs.b }
  | .or => { rs with a := rs.a ||| rs.b }
  | .xor => { rs with a := rs.a ^^^ rs.b }
  | .nand => { rs with a := ~~~(rs.a &&& rs.b) }
  | .nor => { rs with a := ~~~(rs.a ||| rs.b) }
  | .xnor => { rs with a := ~~~(rs.a ^^^ rs.b) }
  | .cksm => { rs with c := Arithmetic.parity rs.a false }
  | .cksmc => { rs with c := Arithmetic.parity rs.a rs.c }
  | .incr => { rs with q := rs.q + 1 }
  | .decr => { rs with q := rs.q - 1 }
  | .jmp => { rs with p := rs.r }
  | .jmpc => if rs.c then { rs with p := rs.r } else rs
  | .jmpz => if rs.z then { rs with p := rs.r } else rs
  | .jmpq => if rs.z then rs else { rs with p := rs.r }
  | _ => rs

namespace Effect

variable {δ : Type} [Device δ]

def execute : Opcode → Effect δ Unit
  | .adr => do
    let h ← fetch
    let l ← fetch
    modifyRegisters fun rs => { rs with h, l }
  | .lda => do
    let a ← read (← registers).r
    modifyRegisters fun rs => { rs with a }
  | .sta => do
    let rs ← registers
    write rs.r rs.a
  | .cla => do
    let a ← fetch
    modifyRegisters fun rs => { rs with a }
  | .clb => do
    let b ← fetch
    modifyRegisters fun rs => { rs with b }
  | .clq => do
    let q ← fetch
    modifyRegisters fun rs => { rs with q }
  | .psh => do
    push (← registers).a
  | .pop => do
    let a ← pop
    modifyRegisters fun rs => { rs with a }
  | .subr => do
    let rs ← registers
    push (highByte rs.p)
    push (lowByte rs.p)
    modifyRegisters fun rs => { rs with p := rs.r }
  | .ret => do
    let low ← pop
    let high ← pop
    modifyRegisters fun rs => { rs with p := joinBytes high low }
  | op => modifyRegisters (·.after op)

/-- Fetches an instruction and carries it out; the value is the instruction. -/
def step : Effect δ Opcode := do
  let byte ← fetch
  let op ← ofOption (.invalidInstruction byte) (Opcode.ofByte? byte)
  execute op
  return op

end Effect

namespace Machine

variable {δ : Type} [Device δ]

/-- One clock. It does nothing once the machine has halted. -/
def clock : Machine δ → StepReport × Machine δ
  | ⟨rs, bus, .running⟩ =>
    let pc := rs.p
    match Effect.step ⟨rs, bus, []⟩ with
    | .ok .hlt ⟨rs, bus, raised⟩ =>
      (⟨pc, raised ++ [.halting], false⟩, ⟨rs, bus, .halted .instruction⟩)
    | .ok _ ⟨rs, bus, raised⟩ => (⟨pc, raised, true⟩, ⟨rs, bus, .running⟩)
    | .error f ⟨rs, bus, raised⟩ =>
      (⟨pc, raised ++ [.fault f], false⟩, ⟨rs, bus, .halted (.fault f)⟩)
  | ⟨rs, bus, .halted reason⟩ => (⟨rs.p, [], false⟩, ⟨rs, bus, .halted reason⟩)

theorem clock_of_halted {m : Machine δ} (h : m.isRunning = false) :
    m.clock = (⟨m.registers.p, [], false⟩, m) := by
  obtain ⟨rs, bus, state⟩ := m
  cases state with
  | running => cases h
  | halted reason => rfl

end Machine

end Octet
