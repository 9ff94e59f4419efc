import Mathlib.Data.List.Basic
import Octet.Proofs.Machine.Flat

/-! # Instructions on a machine with one memory

What an instruction makes of the registers and the memory is said here without cycles and effects.
One clock comes to that for the instruction that stands at the program counter, with the bytes behind
it as its operands.
-/

namespace Octet

/-- The bytes stand in the memory from the address on. -/
def Memory.Holds (mem : Memory) (a : Address) : List Byte → Prop
  | [] => True
  | b :: bs => mem.get a = b ∧ mem.Holds (a + 1) bs

def RegisterFile.advance (rs : RegisterFile) (n : Nat) : RegisterFile :=
  { rs with p := rs.p + .ofNat n }

namespace Opcode

/-- Whether the instruction goes on somewhere else than behind itself. -/
def redirects (op : Opcode) (rs : RegisterFile) : Bool :=
  match op with
  | .jmp | .subr | .ret => true
  | .jmpc => rs.c
  | .jmpz => rs.z
  | .jmpq => !rs.z
  | _ => false

/-- The registers and the memory after the instruction, from those before it with the program counter
behind the operands. -/
def perform (op : Opcode) (operands : List Byte) (rs : RegisterFile) (mem : Memory) :
    RegisterFile × Memory :=
  let cell (s : Byte) : Address := Effect.stackPage + s.toUInt16
  match op with
  | .adr => ({ rs with h := operands.getD 0 0, l := operands.getD 1 0 }, mem)
  | .cla => ({ rs with a := operands.getD 0 0 }, mem)
  | .clb => ({ rs with b := operands.getD 0 0 }, mem)
  | .clq => ({ rs with q := operands.getD 0 0 }, mem)
  | .lda => ({ rs with a := mem.get rs.r }, mem)
  | .sta => (rs, mem.set rs.r rs.a)
  | .psh => ({ rs with s := rs.s - 1 }, mem.set (cell rs.s) rs.a)
  | .pop => ({ rs with s := rs.s + 1, a := mem.get (cell (rs.s + 1)) }, mem)
  | .subr => ({ rs with s := rs.s - 1 - 1, p := rs.r },
    (mem.set (cell rs.s) (highByte rs.p)).set (cell (rs.s - 1)) (lowByte rs.p))
  | .ret => ({ rs with
    s := rs.s + 1 + 1
    p := joinBytes (mem.get (cell (rs.s + 1 + 1))) (mem.get (cell (rs.s + 1))) }, mem)
  | op => (rs.after op, mem)

theorem p_perform {op : Opcode} {rs : RegisterFile} (h : op.redirects rs = false)
    (operands : List Byte) (mem : Memory) : (op.perform operands rs mem).1.p = rs.p := by
  cases op with
  | jmp | subr | ret => cases h
  | jmpc =>
    have hc : rs.c = false := h
    simp [perform, RegisterFile.after, hc]
  | jmpz =>
    have hz : rs.z = false := h
    simp [perform, RegisterFile.after, hz]
  | jmpq =>
    have hz : rs.z = true := by simpa [redirects] using h
    simp [perform, RegisterFile.after, hz]
  | _ => rfl

end Opcode

namespace Effect

section

variable {δ α β : Type}

theorem bind_of_ok {x : Effect δ α} {f : α → Effect δ β} {c c' : Cycle δ} {v : α}
    (h : x c = .ok v c') : (x >>= f) c = f v c' := by
  simp only [bind, EStateM.bind, h]

end

variable (rs : RegisterFile) (mem : Memory) (raised : List Diagnostic)

theorem fetch_flat : ∃ raised', fetch ⟨rs, .flat mem, raised⟩ =
    .ok (mem.get rs.p) ⟨{ rs with p := rs.p + 1 }, .flat mem, raised'⟩ := by
  simp [fetch, conclude]

theorem push_flat (v : Byte) : ∃ raised', push v ⟨rs, .flat mem, raised⟩ =
    .ok () ⟨{ rs with s := rs.s - 1 }, .flat (mem.set (stackPage + rs.s.toUInt16) v), raised'⟩ := by
  simp [push, bind, EStateM.bind, registers, write, conclude, modifyRegisters, warn]

theorem pop_flat : ∃ raised', pop ⟨rs, .flat mem, raised⟩ =
    .ok (mem.get (stackPage + (rs.s + 1).toUInt16))
      ⟨{ rs with s := rs.s + 1 }, .flat mem, raised'⟩ := by
  simp [pop, bind, EStateM.bind, registers, read, conclude, modifyRegisters, warn]

theorem execute_flat_of_no_operand {op : Opcode} (h : op.immediateBytes = 0) :
    ∃ raised', execute op ⟨rs, .flat mem, raised⟩ =
      .ok () ⟨(op.perform [] rs mem).1, .flat (op.perform [] rs mem).2, raised'⟩ := by
  cases op with
  | adr | cla | clb | clq => cases h
  | lda =>
    refine ⟨raised ++ [], ?_⟩
    simp [execute, bind, EStateM.bind, registers, read, conclude, modifyRegisters, Opcode.perform]
  | sta =>
    refine ⟨raised ++ [], ?_⟩
    simp [execute, bind, EStateM.bind, registers, write, conclude, Opcode.perform]
  | psh => exact push_flat rs mem raised rs.a
  | pop =>
    obtain ⟨raised₁, h₁⟩ := pop_flat rs mem raised
    refine ⟨raised₁, ?_⟩
    rw [execute, bind_of_ok h₁]
    rfl
  | subr =>
    have hrs : registers ⟨rs, .flat mem, raised⟩ = .ok rs ⟨rs, .flat mem, raised⟩ := rfl
    obtain ⟨raised₁, h₁⟩ := push_flat rs mem raised (highByte rs.p)
    obtain ⟨raised₂, h₂⟩ := push_flat { rs with s := rs.s - 1 }
      (mem.set (stackPage + rs.s.toUInt16) (highByte rs.p)) raised₁ (lowByte rs.p)
    refine ⟨raised₂, ?_⟩
    rw [execute, bind_of_ok hrs, bind_of_ok h₁, bind_of_ok h₂]
    rfl
  | ret =>
    obtain ⟨raised₁, h₁⟩ := pop_flat rs mem raised
    obtain ⟨raised₂, h₂⟩ := pop_flat { rs with s := rs.s + 1 } mem raised₁
    refine ⟨raised₂, ?_⟩
    rw [execute, bind_of_ok h₁, bind_of_ok h₂]
    rfl
  | _ => exact ⟨raised, rfl⟩

theorem execute_flat {op : Opcode} {operands : List Byte}
    (hlen : operands.length = op.immediateBytes) (hmem : mem.Holds rs.p operands) :
    ∃ raised', execute op ⟨rs, .flat mem, raised⟩ =
      .ok () ⟨(op.perform operands (rs.advance operands.length) mem).1,
        .flat (op.perform operands (rs.advance operands.length) mem).2, raised'⟩ := by
  have hone (h : op.immediateBytes = 1) : ∃ v raised', operands = [v] ∧
      fetch ⟨rs, .flat mem, raised⟩ = .ok v ⟨rs.advance 1, .flat mem, raised'⟩ := by
    obtain ⟨v, rfl⟩ := List.length_eq_one_iff.1 (hlen.trans h)
    obtain ⟨raised', hf⟩ := fetch_flat rs mem raised
    rw [hmem.1] at hf
    exact ⟨v, raised', rfl, hf⟩
  cases op with
  | adr =>
    obtain ⟨h, l, rfl⟩ := List.length_eq_two.1 hlen
    obtain ⟨hh, hl, -⟩ := hmem
    obtain ⟨raised₁, h₁⟩ := fetch_flat rs mem raised
    obtain ⟨raised₂, h₂⟩ := fetch_flat { rs with p := rs.p + 1 } mem raised₁
    have hp : rs.p + 1 + 1 = rs.p + .ofNat 2 := UInt16.add_assoc ..
    rw [hh] at h₁
    rw [hl, hp] at h₂
    refine ⟨raised₂, ?_⟩
    rw [execute, bind_of_ok h₁, bind_of_ok h₂]
    rfl
  | cla | clb | clq =>
    obtain ⟨v, raised₁, rfl, h₁⟩ := hone rfl
    refine ⟨raised₁, ?_⟩
    rw [execute, bind_of_ok h₁]
    rfl
  | _ =>
    obtain rfl := List.length_eq_zero_iff.1 hlen
    have hzero : rs.advance 0 = rs := by simp [RegisterFile.advance]
    rw [List.length_nil, hzero]
    exact execute_flat_of_no_operand rs mem raised rfl

end Effect

namespace Machine

/-- One clock carries out the instruction at the program counter with the bytes behind it, which ends
in a halt for the halting instruction only. -/
theorem clock_flat {rs : RegisterFile} {mem : Memory} {op : Opcode} {operands : List Byte}
    (hlen : operands.length = op.immediateBytes) (hmem : mem.Holds rs.p (op.id :: operands)) :
    ∃ diagnostics, (Machine.mk rs (.flat mem) .running).clock =
      (⟨rs.p, diagnostics, op != .hlt⟩,
        ⟨(op.perform operands (rs.advance (1 + operands.length)) mem).1,
          .flat (op.perform operands (rs.advance (1 + operands.length)) mem).2,
          if op = .hlt then .halted .instruction else .running⟩) := by
  obtain ⟨hop, hmem⟩ := hmem
  obtain ⟨raised₁, h₁⟩ := Effect.fetch_flat rs mem []
  obtain ⟨raised₂, h₂⟩ := Effect.execute_flat { rs with p := rs.p + 1 } mem raised₁ hlen hmem
  have hadvance : ({ rs with p := rs.p + 1 } : RegisterFile).advance operands.length =
      rs.advance (1 + operands.length) := by
    simp [RegisterFile.advance, UInt16.add_assoc]
  rw [hadvance] at h₂
  have hdecode : Effect.ofOption (.invalidInstruction op.id) (Opcode.ofByte? op.id)
      ⟨{ rs with p := rs.p + 1 }, .flat mem, raised₁⟩ =
      .ok op ⟨{ rs with p := rs.p + 1 }, .flat mem, raised₁⟩ := by
    rw [Opcode.ofByte?_id]
    rfl
  have hstep : Effect.step ⟨rs, .flat mem, []⟩ =
      .ok op ⟨(op.perform operands (rs.advance (1 + operands.length)) mem).1,
        .flat (op.perform operands (rs.advance (1 + operands.length)) mem).2, raised₂⟩ := by
    rw [hop] at h₁
    rw [Effect.step, Effect.bind_of_ok h₁, Effect.bind_of_ok hdecode, Effect.bind_of_ok h₂]
    rfl
  rw [clock, hstep]
  cases op with
  | hlt => exact ⟨raised₂ ++ [.halting], rfl⟩
  | _ => exact ⟨raised₂, rfl⟩

/-- The instruction that the next clock carries out, if it carries out one. -/
def instruction? {δ : Type} [Device δ] (m : Machine δ) : Option Opcode :=
  match m.state, (m.bus.read m.registers.p).1.result with
  | .running, .ok byte => Opcode.ofByte? byte
  | _, _ => none

theorem instruction?_flat (rs : RegisterFile) (mem : Memory) :
    (Machine.mk rs (.flat mem) .running).instruction? = Opcode.ofByte? (mem.get rs.p) := by
  simp only [instruction?, Bus.read_flat]

section

variable {m : Machine (RangeLimiter Memory)} {mem : Memory}

/-- Without an instruction a clock does no more than move the program counter on. -/
theorem clock_of_none (hbus : m.bus = .flat mem) (h : m.instruction? = none) :
    ∃ p state', m.clock.2 = ⟨{ m.registers with p }, .flat mem, state'⟩ := by
  obtain ⟨rs, bus, state⟩ := m
  obtain rfl : bus = .flat mem := hbus
  cases state with
  | halted reason => exact ⟨rs.p, .halted reason, rfl⟩
  | running =>
    rw [instruction?_flat] at h
    obtain ⟨raised, hfetch⟩ := Effect.fetch_flat rs mem []
    have hstep : Effect.step ⟨rs, .flat mem, []⟩ =
        .error (.invalidInstruction (mem.get rs.p))
          ⟨{ rs with p := rs.p + 1 }, .flat mem, raised⟩ := by
      rw [Effect.step, Effect.bind_of_ok hfetch, h]
      rfl
    rw [clock, hstep]
    exact ⟨_, _, rfl⟩

theorem exists_holds (mem : Memory) (a : Address) (n : Nat) :
    ∃ bytes, bytes.length = n ∧ mem.Holds a bytes := by
  induction n generalizing a with
  | zero => exact ⟨[], rfl, trivial⟩
  | succ n ih =>
    obtain ⟨bytes, hlen, hmem⟩ := ih (a + 1)
    exact ⟨mem.get a :: bytes, congrArg (· + 1) hlen, rfl, hmem⟩

/-- An instruction is carried out with the bytes that stand behind it, whatever they are. -/
theorem clock_of_some {op : Opcode} (hbus : m.bus = .flat mem) (h : m.instruction? = some op) :
    ∃ operands state', operands.length = op.immediateBytes ∧ m.clock.2 =
      ⟨(op.perform operands (m.registers.advance (1 + operands.length)) mem).1,
        .flat (op.perform operands (m.registers.advance (1 + operands.length)) mem).2, state'⟩ := by
  obtain ⟨rs, bus, state⟩ := m
  obtain rfl : bus = .flat mem := hbus
  cases state with
  | halted reason => cases h
  | running =>
    rw [instruction?_flat] at h
    obtain ⟨operands, hlen, hmem⟩ := exists_holds mem (rs.p + 1) op.immediateBytes
    obtain ⟨diagnostics, hclock⟩ :=
      @clock_flat rs mem op operands hlen ⟨(Opcode.id_of_ofByte? h).symm, hmem⟩
    exact ⟨operands, _, hlen, congrArg Prod.snd hclock⟩

end

end Machine

end Octet
