import Octet.Proofs.Machine.Completion

/-! # The length of instructions

An instruction is its opcode and the immediate bytes behind it. A clock reads just these at the
program counter, across the end of the address space as well; what else it transfers is the data of
the instruction, at the address in `r` or on the stack page. The program counter is left behind the
last one of them, if the instruction does not set it.
-/

namespace Octet

theorem RegisterFile.p_advance_add (rs : RegisterFile) (m n : Nat) :
    (rs.advance m).p + .ofNat n = rs.p + .ofNat (m + n) :=
  congrArg RegisterFile.p (rs.advance_advance m n)

namespace Opcode

def dataRequests (op : Opcode) (rs : RegisterFile) : List Request :=
  let cell (s : Byte) : Address := Effect.stackPage + s.toUInt16
  match op with
  | .lda => [⟨.read, rs.r⟩]
  | .sta => [⟨.write, rs.r⟩]
  | .psh => [⟨.write, cell rs.s⟩]
  | .pop => [⟨.read, cell (rs.s + 1)⟩]
  | .subr => [⟨.write, cell rs.s⟩, ⟨.write, cell (rs.s - 1)⟩]
  | .ret => [⟨.read, cell (rs.s + 1)⟩, ⟨.read, cell (rs.s + 1 + 1)⟩]
  | _ => []

theorem redirects_advance (op : Opcode) (rs : RegisterFile) (n : Nat) :
    op.redirects (rs.advance n) = op.redirects rs := by
  cases op <;> rfl

theorem dataRequests_advance (op : Opcode) (rs : RegisterFile) (n : Nat) :
    op.dataRequests (rs.advance n) = op.dataRequests rs := by
  cases op <;> rfl

theorem immediateBytes_le (op : Opcode) : op.immediateBytes ≤ 2 := by
  cases op <;> decide

/-- Where the program counter is read, an instruction asks for its immediate bytes first. -/
theorem request_demands (op : Opcode) (rs : RegisterFile) : (op.demands rs).map Demand.request =
    (List.range op.immediateBytes).map (fun k => ⟨.read, rs.p + .ofNat k⟩) ++ op.dataRequests rs := by
  have hzero : rs.p + .ofNat 0 = rs.p := UInt16.add_zero rs.p
  cases op with
  | adr =>
    have hrange : List.range Opcode.adr.immediateBytes = [0, 1] := rfl
    rw [hrange, List.map_cons, hzero]
    rfl
  | cla | clb | clq =>
    have hrange : List.range 1 = [0] := rfl
    rw [immediateBytes, hrange, List.map_cons, hzero]
    rfl
  | _ => rfl

theorem p_completed {op : Opcode} {rs : RegisterFile} (h : op.redirects rs = false)
    (bytes : List Byte) : (op.completed bytes rs).p = rs.p + .ofNat op.immediateBytes := by
  have hzero : rs.p = rs.p + .ofNat 0 := (UInt16.add_zero rs.p).symm
  cases op with
  | jmp | subr | ret => cases h
  | adr | cla | clb | clq => rfl
  | jmpc =>
    have hc : rs.c = false := h
    simp [completed, RegisterFile.after, immediateBytes, hc]
  | jmpz =>
    have hz : rs.z = false := h
    simp [completed, RegisterFile.after, immediateBytes, hz]
  | jmpq =>
    have hz : rs.z = true := by simpa [redirects] using h
    simp [completed, RegisterFile.after, immediateBytes, hz]
  | _ => exact hzero

theorem p_completed_of_redirects {op : Opcode} {rs : RegisterFile} (h : op.redirects rs = true)
    (hret : op ≠ .ret) (bytes : List Byte) : (op.completed bytes rs).p = rs.r := by
  cases op with
  | jmp | subr => rfl
  | ret => exact absurd rfl hret
  | jmpc =>
    have hc : rs.c = true := h
    simp [completed, RegisterFile.after, hc]
  | jmpz =>
    have hz : rs.z = true := h
    simp [completed, RegisterFile.after, hz]
  | jmpq =>
    have hz : rs.z = false := by simpa [redirects] using h
    simp [completed, RegisterFile.after, hz]
  | _ => cases h

end Opcode

/-- There is a byte for each read among demands that are met. -/
theorem Bus.length_readings {δ : Type} [Device δ] {bus : Bus δ} {ds : List Demand}
    (h : (bus.serve ds).2.1 = none) :
    (bus.readings ds).length = ds.countP (·.request.access = .read) := by
  induction ds generalizing bus with
  | nil => rfl
  | cons d ds ih =>
    cases hmet : (bus.meet d).1 with
    | false =>
      rw [serve_cons_of_refused hmet] at h
      cases h
    | true =>
      rw [serve_cons_of_met hmet] at h
      have hrest := ih h
      cases d with
      | write a v =>
        rw [List.countP_cons_of_neg (by simp [Demand.request])]
        exact hrest
      | read a =>
        rcases bus.meet_read a with ⟨v, hresult, -⟩ | ⟨-, hrefused⟩
        · rw [List.countP_cons_of_pos (by simp [Demand.request]), ← hrest, readings, hresult]
          rfl
        · rw [hrefused] at hmet
          cases hmet

namespace Machine

variable {δ : Type} [Device δ] {m : Machine δ} {op : Opcode}

theorem request_demands (hop : m.instruction? = some op) : m.demands.map Demand.request =
    (List.range (1 + op.immediateBytes)).map (fun k => ⟨.read, m.registers.p + .ofNat k⟩) ++
      op.dataRequests m.registers := by
  have hfirst : m.registers.p + .ofNat 0 = m.registers.p := UInt16.add_zero _
  rw [demands, hop, List.map_cons, Opcode.request_demands, Opcode.dataRequests_advance, Nat.add_comm,
    List.range_succ_eq_map, List.map_cons, List.map_map, hfirst]
  simp only [RegisterFile.p_advance_add, Nat.add_comm 1]
  rfl

/-- A clock that meets no fault carries out an instruction. At the program counter it reads the
opcode and the immediate bytes that the instruction declares, one after the other, and only then
makes its other transfers. Without a jump, call or return the program counter has moved on by as
many bytes; and it is said to have gone round just where these bytes reach the end of the address
space. -/
theorem clock_reads_instruction (m : Machine δ) (hm : m.isRunning = true)
    (hok : m.clock.2.state.fault? = none) : ∃ op, m.instruction? = some op ∧
      let pc := m.registers.p
      let next := m.clock.2.registers.p
      let length := 1 + op.immediateBytes
      m.transfers .clock = (List.range length).map (fun k => ⟨.read, pc + .ofNat k⟩) ++
        op.dataRequests m.registers ∧
      (op.redirects m.registers = false → next.toNat = (pc.toNat + length) % 65536) ∧
      (op.redirects m.registers = true → op ≠ .ret → next = m.registers.r) ∧
      (op = .ret → ∃ byte low high, m.bus.readings m.demands = [byte, low, high] ∧
        next = joinBytes high low) ∧
      m.clock.1.diagnostics.count .programCounterWrapped =
        if 65536 ≤ pc.toNat + length then 1 else 0 := by
  cases course hm with
  | unfetched hop hserve hregisters hstate =>
    rw [hstate] at hok
    cases hok
  | undecoded byte hop hserve hregisters hstate =>
    rw [hstate] at hok
    cases hok
  | interrupted op granted r hop hserve hregisters hstate =>
    rw [hstate] at hok
    cases hok
  | completed op hop hserve hstate =>
    obtain ⟨hregisters, hwraps⟩ := completed_clock hop hok
    have hlt := m.registers.p.toNat_lt
    have hle := op.immediateBytes_le
    have hlength : (m.bus.readings m.demands).length =
        m.demands.countP (·.request.access = .read) := Bus.length_readings (by rw [hserve])
    refine ⟨op, hop, ?_, ?_, ?_, ?_, ?_⟩
    · rw [transfers_clock hm, hserve, Option.toList_none, List.append_nil, request_demands hop]
    · intro hstays
      rw [← op.redirects_advance m.registers 1] at hstays
      rw [hregisters, Opcode.p_completed hstays, RegisterFile.p_advance_add, UInt16.toNat_add,
        UInt16.toNat_ofNat', Nat.add_mod_mod]
    · intro hredirects hret
      rw [← op.redirects_advance m.registers 1] at hredirects
      rw [hregisters, Opcode.p_completed_of_redirects hredirects hret]
      rfl
    · rintro rfl
      have hthree : (m.bus.readings m.demands).length = 3 := by
        rw [hlength, demands, hop]
        rfl
      obtain ⟨byte, low, high, hbytes⟩ := List.length_eq_three.1 hthree
      rw [hbytes] at hregisters
      exact ⟨byte, low, high, hbytes, congrArg RegisterFile.p hregisters⟩
    · rw [hwraps]
      split <;> omega

/-- An instruction of three bytes across the end of the address space, and a jump to its begin. -/
theorem clock_reads_instruction_wrapped :
    let mem : Memory := ⟨2, #[Opcode.jmp.id, 0, Opcode.adr.id, 9], by decide, by decide, rfl⟩
    let m (p : Address) : Machine Memory :=
      ⟨{ RegisterFile.initial with p }, .ofDevices [mem], .running⟩
    ((m 0xFFFE).isRunning = true ∧ (m 0xFFFE).clock.2.state.fault? = none ∧
      (m 0xFFFE).transfers .clock = [⟨.read, 0xFFFE⟩, ⟨.read, 0xFFFF⟩, ⟨.read, 0⟩] ∧
      (m 0xFFFE).clock.2.registers.p.toNat = 1 ∧
      (m 0xFFFE).clock.1.diagnostics.count .programCounterWrapped = 1) ∧
    (m 4).isRunning = true ∧ (m 4).clock.2.state.fault? = none ∧
      (m 4).clock.2.registers.p = 0 ∧
      (m 4).clock.1.diagnostics.count .programCounterWrapped = 0 := by
  intro mem m
  have hm : (m 0xFFFE).isRunning = true := rfl
  have hok : (m 0xFFFE).clock.2.state.fault? = none := by decide +kernel
  obtain ⟨op, hop, htransfers, hnext, -, -, hcount⟩ := clock_reads_instruction (m 0xFFFE) hm hok
  have hadr : (m 0xFFFE).instruction? = some .adr := by decide +kernel
  obtain rfl : op = .adr := Option.some.inj (hop.symm.trans hadr)
  have hm' : (m 4).isRunning = true := rfl
  have hok' : (m 4).clock.2.state.fault? = none := by decide +kernel
  obtain ⟨op, hop', -, -, hr, -, hcount'⟩ := clock_reads_instruction (m 4) hm' hok'
  have hjmp : (m 4).instruction? = some .jmp := by decide +kernel
  obtain rfl : op = .jmp := Option.some.inj (hop'.symm.trans hjmp)
  refine ⟨⟨hm, hok, ?_, ?_, ?_⟩, hm', hok', ?_, ?_⟩
  · exact htransfers.trans (by decide +kernel)
  · exact (hnext rfl).trans (by decide +kernel)
  · exact hcount.trans (by decide +kernel)
  · exact (hr rfl (by decide)).trans (by decide +kernel)
  · exact hcount'.trans (by decide +kernel)

end Machine

end Octet
