import Octet.Proofs.Machine.Demands

/-! # Completed instructions

An instruction that meets no fault has been answered every byte that it has asked for. The registers
behind it follow from these bytes and the registers before it, and that the program counter has gone
round is said of its operand bytes alone.
-/

namespace Octet

/-- The bytes that are answered to the reads among the demands. -/
def Bus.readings {δ : Type} [Device δ] (bus : Bus δ) : List Demand → List Byte
  | [] => []
  | .read a :: ds => (bus.read a).1.result.toOption.toList ++ (bus.read a).2.readings ds
  | .write a v :: ds => (bus.write a v).2.readings ds

/-- The registers behind an instruction that has read the bytes, from those before it, in which the
program counter stands behind the opcode. -/
def Opcode.completed (op : Opcode) (bytes : List Byte) (rs : RegisterFile) : RegisterFile :=
  match op with
  | .adr => { rs.advance 2 with h := bytes.getD 0 0, l := bytes.getD 1 0 }
  | .cla => { rs.advance 1 with a := bytes.getD 0 0 }
  | .clb => { rs.advance 1 with b := bytes.getD 0 0 }
  | .clq => { rs.advance 1 with q := bytes.getD 0 0 }
  | .lda => { rs with a := bytes.getD 0 0 }
  | .psh => { rs with s := rs.s - 1 }
  | .pop => { rs with s := rs.s + 1, a := bytes.getD 0 0 }
  | .subr => { rs with s := rs.s - 1 - 1, p := rs.r }
  | .ret => { rs with s := rs.s + 1 + 1, p := joinBytes (bytes.getD 1 0) (bytes.getD 0 0) }
  | op => rs.after op

/-- How often it has been said in the cycle that the program counter has gone round. -/
def Cycle.wraps {δ : Type} (c : Cycle δ) : Nat := c.raised.count .programCounterWrapped

namespace Bus

variable {δ : Type} [Device δ] (bus : Bus δ) (a : Address) (v : Byte)

theorem count_arbitrate {α : Type} (access : Access) (count : Nat) (w : α) :
    (arbitrate access a count w).raised.count .programCounterWrapped = 0 := by
  match count with
  | 0 | 1 => rfl
  | count + 2 => exact List.count_eq_zero.2 (by simp [arbitrate])

theorem count_read : (bus.read a).1.raised.count .programCounterWrapped = 0 := by
  rw [transfer_read, count_arbitrate]

theorem count_write : (bus.write a v).1.raised.count .programCounterWrapped = 0 := by
  rw [transfer_write, count_arbitrate]

end Bus

namespace Effect

variable {δ α β : Type}

theorem of_bind_ok {x : Effect δ α} {f : α → Effect δ β} {c d : Cycle δ} {v : β}
    (h : (x >>= f) c = .ok v d) : ∃ w e, x c = .ok w e ∧ f w e = .ok v d := by
  simp only [bind, EStateM.bind] at h
  cases hx : x c with
  | ok w e =>
    rw [hx] at h
    exact ⟨w, e, rfl, h⟩
  | error f e =>
    rw [hx] at h
    cases h

theorem of_conclude_ok {result : Except Fault α} {c d : Cycle δ} {v : α}
    (h : conclude result c = .ok v d) : result = .ok v ∧ d = c := by
  cases result with
  | ok w =>
    cases h
    exact ⟨rfl, rfl⟩
  | error f => cases h

variable [Device δ] {c d : Cycle δ} {v : Byte}

/-- From one cycle to another a byte has been read, the registers have been set, and the program
counter has gone round so many times. -/
structure Reads (a : Address) (rs : RegisterFile) (rounds : Nat) (c d : Cycle δ) (v : Byte) : Prop where
  result : (c.bus.read a).1.result = .ok v
  bus : d.bus = (c.bus.read a).2
  registers : d.registers = rs
  wraps : d.wraps = c.wraps + rounds

/-- From one cycle to another a byte has been written and the registers have been set. -/
structure Writes (a : Address) (v : Byte) (rs : RegisterFile) (c d : Cycle δ) : Prop where
  bus : d.bus = (c.bus.write a v).2
  registers : d.registers = rs
  wraps : d.wraps = c.wraps

theorem Reads.readings {a : Address} {rs : RegisterFile} {rounds : Nat}
    (h : Reads a rs rounds c d v) (ds : List Demand) :
    c.bus.readings (.read a :: ds) = v :: d.bus.readings ds := by
  rw [Bus.readings, h.result, h.bus]
  rfl

theorem of_read_ok {a : Address} (h : read a c = .ok v d) : Reads a c.registers 0 c d v := by
  obtain ⟨hresult, hd⟩ : (c.bus.read a).1.result = .ok v ∧
    d = ⟨c.registers, (c.bus.read a).2, c.raised ++ (c.bus.read a).1.raised⟩ := of_conclude_ok h
  subst hd
  refine ⟨hresult, rfl, rfl, ?_⟩
  rw [Cycle.wraps, List.count_append, Bus.count_read, Cycle.wraps]

theorem of_write_ok {a : Address} (h : write a v c = .ok () d) : Writes a v c.registers c d := by
  obtain ⟨-, hd⟩ : (c.bus.write a v).1.result = .ok () ∧
    d = ⟨c.registers, (c.bus.write a v).2, c.raised ++ (c.bus.write a v).1.raised⟩ :=
    of_conclude_ok h
  subst hd
  refine ⟨rfl, rfl, ?_⟩
  rw [Cycle.wraps, List.count_append, Bus.count_write, Cycle.wraps, Nat.add_zero]

theorem count_wrapped (p : Address) :
    (if p + 1 = 0 then [Diagnostic.programCounterWrapped] else []).count .programCounterWrapped =
      (p.toNat + 1) / 65536 := by
  have hlt := p.toNat_lt
  have hnext : (p + 1).toNat = (p.toNat + 1) % 65536 := UInt16.toNat_add p 1
  split
  · rename_i hzero
    rw [hzero] at hnext
    have : (0 : UInt16).toNat = 0 := rfl
    simp only [List.count_singleton_self]
    omega
  · rename_i hne
    have : (p + 1).toNat ≠ 0 := fun h => hne (UInt16.toNat_inj.1 h)
    simp only [List.count_nil]
    omega

theorem of_fetch_ok (h : fetch c = .ok v d) :
    Reads c.registers.p (c.registers.advance 1) ((c.registers.p.toNat + 1) / 65536) c d v := by
  let wrapped := if c.registers.p + 1 = 0 then [Diagnostic.programCounterWrapped] else []
  obtain ⟨hresult, hd⟩ : (c.bus.read c.registers.p).1.result = .ok v ∧
    d = ⟨c.registers.advance 1, (c.bus.read c.registers.p).2,
      c.raised ++ (c.bus.read c.registers.p).1.raised ++ wrapped⟩ := of_conclude_ok h
  subst hd
  refine ⟨hresult, rfl, rfl, ?_⟩
  rw [Cycle.wraps, List.count_append, List.count_append, Bus.count_read, count_wrapped, Cycle.wraps,
    Nat.add_zero]

omit [Device δ] in
theorem of_warn_ok {condition : Bool} {w : Diagnostic} (hw : w ≠ .programCounterWrapped)
    (h : warn condition w c = .ok () d) :
    d.bus = c.bus ∧ d.registers = c.registers ∧ d.wraps = c.wraps := by
  cases h
  refine ⟨rfl, rfl, ?_⟩
  cases condition with
  | false => rfl
  | true =>
    have hzero : [w].count .programCounterWrapped = 0 :=
      List.count_eq_zero.2 (by simpa using hw.symm)
    rw [Cycle.wraps, if_pos rfl, List.count_append, hzero, Cycle.wraps, Nat.add_zero]

theorem of_push_ok (h : push v c = .ok () d) :
    Writes (stackPage + c.registers.s.toUInt16) v { c.registers with s := c.registers.s - 1 } c d := by
  obtain ⟨_, _, hrs, h⟩ := of_bind_ok h
  cases hrs
  obtain ⟨_, e, hwrite, h⟩ := of_bind_ok h
  obtain ⟨_, _, hmodify, h⟩ := of_bind_ok h
  cases hmodify
  obtain ⟨hbus, hregisters, hwraps⟩ := of_warn_ok (by decide) h
  have hw := of_write_ok hwrite
  refine ⟨hbus.trans hw.bus, ?_, hwraps.trans hw.wraps⟩
  rw [hregisters, hw.registers]

theorem of_pop_ok (h : pop c = .ok v d) :
    Reads (stackPage + (c.registers.s + 1).toUInt16) { c.registers with s := c.registers.s + 1 } 0
      c d v := by
  obtain ⟨_, _, hmodify, h⟩ := of_bind_ok h
  cases hmodify
  obtain ⟨_, _, hrs, h⟩ := of_bind_ok h
  cases hrs
  obtain ⟨_, e, hwarn, h⟩ := of_bind_ok h
  obtain ⟨hbus, hregisters, hwraps⟩ := of_warn_ok (by decide) hwarn
  have hr := of_read_ok h
  have hresult := hr.result
  have hread := hr.bus
  rw [hbus] at hresult hread
  exact ⟨hresult, hread, hr.registers.trans hregisters, hr.wraps.trans hwraps⟩

theorem completed_of_no_operand {op : Opcode} (hop : op.immediateBytes = 0)
    (hx : execute op c = .ok () d) :
    d.registers = op.completed (c.bus.readings (op.demands c.registers)) c.registers ∧
      d.wraps = c.wraps := by
  cases op with
  | adr | cla | clb | clq => cases hop
  | lda =>
    rw [execute, registers_bind] at hx
    obtain ⟨v, e, h₁, hx⟩ := of_bind_ok hx
    cases hx
    have r₁ := of_read_ok h₁
    rw [Opcode.demands, r₁.readings]
    exact ⟨congrArg (fun rs : RegisterFile => { rs with a := v }) r₁.registers, r₁.wraps⟩
  | sta =>
    rw [execute, registers_bind] at hx
    have w₁ := of_write_ok hx
    exact ⟨w₁.registers, w₁.wraps⟩
  | psh =>
    rw [execute, registers_bind] at hx
    have w₁ := of_push_ok hx
    exact ⟨w₁.registers, w₁.wraps⟩
  | pop =>
    obtain ⟨v, e, h₁, hx⟩ := of_bind_ok hx
    cases hx
    have r₁ := of_pop_ok h₁
    rw [Opcode.demands, r₁.readings]
    exact ⟨congrArg (fun rs : RegisterFile => { rs with a := v }) r₁.registers, r₁.wraps⟩
  | subr =>
    rw [execute, registers_bind] at hx
    obtain ⟨_, e, h₁, hx⟩ := of_bind_ok hx
    obtain ⟨_, e', h₂, hx⟩ := of_bind_ok hx
    cases hx
    have w₁ := of_push_ok h₁
    have w₂ := of_push_ok h₂
    rw [w₁.registers] at w₂
    exact ⟨congrArg (fun rs : RegisterFile => { rs with p := rs.r }) w₂.registers,
      w₂.wraps.trans w₁.wraps⟩
  | ret =>
    obtain ⟨low, e, h₁, hx⟩ := of_bind_ok hx
    obtain ⟨high, e', h₂, hx⟩ := of_bind_ok hx
    cases hx
    have r₁ := of_pop_ok h₁
    have r₂ := of_pop_ok h₂
    rw [r₁.registers] at r₂
    rw [Opcode.demands, r₁.readings, r₂.readings]
    exact ⟨congrArg (fun rs : RegisterFile => { rs with p := joinBytes high low }) r₂.registers,
      r₂.wraps.trans r₁.wraps⟩
  | _ =>
    cases hx
    exact ⟨rfl, rfl⟩

/-- An instruction that ends has set the registers by what it has read, and the program counter has
gone round where its operand bytes lie across the end of the address space. -/
theorem completed_of_execute_ok {op : Opcode} (hx : execute op c = .ok () d) :
    d.registers = op.completed (c.bus.readings (op.demands c.registers)) c.registers ∧
      d.wraps = c.wraps + (c.registers.p.toNat + op.immediateBytes) / 65536 := by
  have hlt := c.registers.p.toNat_lt
  have hnone : c.wraps = c.wraps + (c.registers.p.toNat + 0) / 65536 := by omega
  cases op with
  | adr =>
    obtain ⟨h, e, h₁, hx⟩ := of_bind_ok hx
    obtain ⟨l, e', h₂, hx⟩ := of_bind_ok hx
    cases hx
    have r₁ := of_fetch_ok h₁
    have r₂ := of_fetch_ok h₂
    rw [r₁.registers, RegisterFile.advance_advance] at r₂
    have hp : (c.registers.advance 1).p.toNat = (c.registers.p.toNat + 1) % 65536 :=
      UInt16.toNat_add ..
    have hwraps : e'.wraps = c.wraps + (c.registers.p.toNat + 1) / 65536 +
        ((c.registers.p.toNat + 1) % 65536 + 1) / 65536 := by
      rw [r₂.wraps, r₁.wraps, hp]
    constructor
    · have hreadings : c.bus.readings (Opcode.adr.demands c.registers) = [h, l] := by
        rw [Opcode.demands, r₁.readings]
        exact congrArg (h :: ·) (r₂.readings [])
      rw [hreadings]
      exact congrArg (fun rs : RegisterFile => { rs with h, l }) r₂.registers
    · apply hwraps.trans
      rw [Opcode.immediateBytes]
      omega
  | cla | clb | clq =>
    obtain ⟨v, e, h₁, hx⟩ := of_bind_ok hx
    cases hx
    have r₁ := of_fetch_ok h₁
    rw [Opcode.demands, r₁.readings]
    refine ⟨?_, r₁.wraps⟩
    dsimp only
    rw [r₁.registers]
    rfl
  | _ =>
    obtain ⟨hregisters, hwraps⟩ := completed_of_no_operand rfl hx
    exact ⟨hregisters, hwraps.trans hnone⟩

theorem of_step_ok {op : Opcode} (hx : step c = .ok op d) :
    let rs := c.registers.advance 1
    ∃ byte, (c.bus.read c.registers.p).1.result = .ok byte ∧ Opcode.ofByte? byte = some op ∧
      d.registers = op.completed ((c.bus.read c.registers.p).2.readings (op.demands rs)) rs ∧
      d.wraps = c.wraps + (c.registers.p.toNat + 1 + op.immediateBytes) / 65536 := by
  intro rs
  obtain ⟨byte, e, hfetch, hx⟩ := of_bind_ok hx
  obtain ⟨op', e', hdecode, hx⟩ := of_bind_ok hx
  obtain ⟨_, e'', hexecute, hx⟩ := of_bind_ok hx
  cases hx
  have r := of_fetch_ok hfetch
  cases hop : Opcode.ofByte? byte with
  | none =>
    rw [hop] at hdecode
    cases hdecode
  | some op' =>
    rw [hop] at hdecode
    cases hdecode
    obtain ⟨hregisters, hwraps⟩ := completed_of_execute_ok hexecute
    have hp : e.registers.p.toNat = (c.registers.p.toNat + 1) % 65536 := by
      rw [r.registers]
      exact UInt16.toNat_add ..
    rw [r.registers, r.bus] at hregisters
    refine ⟨byte, r.result, hop, hregisters, ?_⟩
    rw [hwraps, r.wraps, hp]
    omega

end Effect

namespace Machine

variable {δ : Type} [Device δ] {m : Machine δ}

/-- A clock that meets no fault completes the instruction at the program counter. -/
theorem completed_clock {op : Opcode} (hop : m.instruction? = some op)
    (hok : m.clock.2.state.fault? = none) :
    m.clock.2.registers = op.completed (m.bus.readings m.demands).tail (m.registers.advance 1) ∧
      m.clock.1.diagnostics.count .programCounterWrapped =
        (m.registers.p.toNat + 1 + op.immediateBytes) / 65536 := by
  obtain ⟨rs, bus, state⟩ := m
  cases state with
  | halted reason => cases hop
  | running =>
    cases hstep : Effect.step ⟨rs, bus, []⟩ with
    | error f c =>
      rw [clock_of_step_error hstep] at hok
      cases hok
    | ok op' c =>
      obtain ⟨byte, hresult, hbyte, hregisters, hwraps⟩ := Effect.of_step_ok hstep
      dsimp only at hresult hregisters hwraps
      have hinstruction : (Machine.mk rs bus .running).instruction? = some op' := by
        simp only [instruction?, hresult, hbyte]
      obtain rfl : op' = op := Option.some.inj (hinstruction.symm.trans hop)
      have hreadings : bus.readings (Machine.mk rs bus .running).demands =
          byte :: (bus.read rs.p).2.readings (op'.demands (rs.advance 1)) := by
        rw [demands, hinstruction, Bus.readings, hresult]
        rfl
      constructor
      · rw [clock_of_step_ok hstep, hreadings]
        exact hregisters
      · have hsaid : (Machine.mk rs bus .running).clock.1.diagnostics.count .programCounterWrapped =
            c.wraps := by
          rw [clock, hstep]
          cases op' <;> simp [Cycle.wraps]
        rw [hsaid, hwraps]
        exact Nat.zero_add _

end Machine

end Octet
