import Octet.Proofs.Machine.Frame

/-! # Clocks that end in a fault

Where a clock ends in a fault is told by the transfers that it has made. The counters stand where
the last of them left them, no other register has changed, and of the two stores of a call the first
may have gone through.
-/

namespace Octet

namespace Opcode

variable {op : Opcode} {rs : RegisterFile} {granted : List Demand} {r : Demand}

theorem granted_of_prefix (h : granted ++ [r] <+: op.demands rs) :
    granted = [] ∨ 2 ≤ (op.demands rs).length ∧ granted = (op.demands rs).take 1 := by
  have hlength : (op.demands rs).length ≤ 2 := by cases op <;> simp [demands]
  have hgranted := List.prefix_iff_eq_take.1 ((List.prefix_append granted [r]).trans h)
  have hle := h.length_le
  rw [List.length_append, List.length_singleton] at hle
  by_cases hnil : granted = []
  · exact .inl hnil
  · have hpos := List.length_pos_iff.2 hnil
    have hone : granted.length = 1 := by omega
    rw [hone] at hgranted
    exact .inr ⟨by omega, hgranted⟩

/-- Of the two stores of a call the first has gone through if the second is refused. -/
theorem entries_of_prefix (h : granted ++ [r] <+: op.demands rs) :
    granted.filterMap Demand.entry? = if op = .subr ∧ granted.length = 1 then
      [⟨Effect.stackPage + rs.s.toUInt16, highByte rs.p⟩] else [] := by
  rcases granted_of_prefix h with rfl | ⟨htwo, rfl⟩
  · simp
  · cases op with
    | adr | subr | ret => rfl
    | _ => simp [demands] at htwo

theorem interrupted_eq (op : Opcode) (granted : Nat) (rs : RegisterFile) :
    op.interrupted granted rs = { rs with
      p := (op.interrupted granted rs).p
      s := (op.interrupted granted rs).s } := by
  cases op <;> rfl

theorem p_interrupted (op : Opcode) (granted : Nat) (rs : RegisterFile) :
    (op.interrupted granted rs).p =
      rs.p + .ofNat (if op.immediateBytes = 0 then 0 else granted + 1) := by
  cases op <;> simp [interrupted, immediateBytes, RegisterFile.advance]

theorem s_interrupted (h : granted ++ [r] <+: op.demands rs) :
    (op.interrupted granted.length rs).s = match op with
      | .pop => rs.s + 1
      | .ret => rs.s + .ofNat (granted.length + 1)
      | .subr => rs.s - .ofNat granted.length
      | _ => rs.s := by
  cases op with
  | pop | psh =>
    obtain rfl : granted = [] := by
      rcases granted_of_prefix h with hnil | ⟨htwo, -⟩
      · exact hnil
      · simp [demands] at htwo
    simp [interrupted]
  | _ => rfl

end Opcode

namespace Machine

/-- The number of immediate bytes that the next clock pulls, one that nobody answers included. -/
def pulls {δ : Type} [Device δ] (m : Machine δ) : Nat :=
  match m.instruction? with
  | some op => if op.immediateBytes = 0 then 0 else (m.transfers .clock).length - 1
  | none => 0

section

variable {δ : Type} [Device δ] {m : Machine δ} {f : Fault}

theorem length_transfers {granted : List Demand} {refused? : Option Demand} {bus : Bus δ}
    (hm : m.isRunning = true) (h : m.bus.serve m.demands = (granted, refused?, bus)) :
    (m.transfers .clock).length = granted.length + refused?.toList.length := by
  rw [transfers_clock hm, h, List.length_map, List.length_append]

theorem getLast?_transfers (hm : m.isRunning = true) (h : m.clock.2.state = .halted (.fault f)) :
    (m.instruction?.isSome → 2 ≤ (m.transfers .clock).length) ∧
      ∀ access a, f = .noDeviceResponded access a →
        (m.transfers .clock).getLast? = some ⟨access, a⟩ := by
  have hlast {granted : List Demand} {r : Demand} {bus : Bus δ}
      (hserve : m.bus.serve m.demands = (granted, some r, bus)) :
      ∀ access a, r.refusal = .noDeviceResponded access a →
        (m.transfers .clock).getLast? = some ⟨access, a⟩ := by
    intro access a hf
    obtain ⟨rfl, rfl⟩ := Fault.noDeviceResponded.inj hf
    rw [transfers_clock hm, hserve]
    simp
  cases course hm with
  | completed op hop hserve hstate =>
    rw [h] at hstate
    cases hstate
  | unfetched hop hserve hregisters hstate =>
    obtain rfl : f = (Demand.read m.registers.p).refusal := by simpa [hstate] using h.symm
    exact ⟨by simp [hop], hlast hserve⟩
  | undecoded byte hop hserve hregisters hstate =>
    obtain rfl : f = .invalidInstruction byte := by simpa [hstate] using h.symm
    exact ⟨by simp [hop], nofun⟩
  | interrupted op granted r hop hserve hregisters hstate =>
    obtain rfl : f = r.refusal := by simpa [hstate] using h.symm
    refine ⟨fun _ => ?_, hlast hserve⟩
    rw [length_transfers hm hserve]
    simp

theorem demands_of_some {op : Opcode} (h : m.instruction? = some op) :
    m.demands = .read m.registers.p :: op.demands (m.registers.advance 1) := by
  rw [demands, h]

theorem prefix_of_interrupted {op : Opcode} {granted : List Demand} {r : Demand} {bus : Bus δ}
    (hop : m.instruction? = some op)
    (hserve : m.bus.serve m.demands = (.read m.registers.p :: granted, some r, bus)) :
    granted ++ [r] <+: op.demands (m.registers.advance 1) := by
  have hserved := m.bus.served_prefix m.demands
  rw [hserve, demands_of_some hop] at hserved
  exact (List.prefix_cons_inj _).1 hserved

theorem registers_of_fault (hm : m.isRunning = true) (h : m.clock.2.state = .halted (.fault f)) :
    m.clock.2.registers = { m.registers with
      p := m.registers.p + 1 + .ofNat m.pulls
      s := match m.instruction? with
        | some .pop => m.registers.s + 1
        | some .ret => m.registers.s + .ofNat ((m.transfers .clock).length - 1)
        | some .subr => m.registers.s - .ofNat ((m.transfers .clock).length - 2)
        | _ => m.registers.s } := by
  cases course hm with
  | completed op hop hserve hstate =>
    rw [h] at hstate
    cases hstate
  | unfetched hop hserve hregisters hstate | undecoded byte hop hserve hregisters hstate =>
    simp [hregisters, pulls, hop, RegisterFile.advance]
  | interrupted op granted r hop hserve hregisters hstate =>
    have hfirst := prefix_of_interrupted hop hserve
    have hlength : (m.transfers .clock).length = granted.length + 2 := by
      rw [length_transfers hm hserve]
      rfl
    have hpulls : m.pulls = if op.immediateBytes = 0 then 0 else granted.length + 1 := by
      simp only [pulls, hop, hlength]
      rfl
    rw [hregisters, Opcode.interrupted_eq, Opcode.p_interrupted, Opcode.s_interrupted hfirst,
      hpulls, hlength, hop]
    cases op <;> rfl

end

theorem devices_of_fault {m : Machine (Attachment Memory)} {f : Fault} (hm : m.isRunning = true)
    (h : m.clock.2.state = .halted (.fault f)) : m.clock.2.bus.devices = m.bus.devices.map (·.putAll
      (if m.instruction? = some .subr ∧ (m.transfers .clock).length = 3 then
        [⟨Effect.stackPage + m.registers.s.toUInt16, highByte (m.registers.p + 1)⟩] else [])) := by
  have hdevices := m.bus.devices_serve m.demands
  rw [← bus_clock hm] at hdevices
  cases course hm with
  | completed op hop hserve hstate =>
    rw [h] at hstate
    cases hstate
  | unfetched hop hserve hregisters hstate | undecoded byte hop hserve hregisters hstate =>
    rw [hdevices, hserve, hop]
    rfl
  | interrupted op granted r hop hserve hregisters hstate =>
    have hentries := Opcode.entries_of_prefix (prefix_of_interrupted hop hserve)
    have hlength : (m.transfers .clock).length = granted.length + 2 := by
      rw [length_transfers hm hserve]
      rfl
    have hthree : granted.length + 2 = 3 ↔ granted.length = 1 := by omega
    rw [hdevices, hserve, hop, hlength]
    simp only [List.filterMap_cons, Demand.entry?, hentries, hthree, Option.some.injEq]
    rfl

/-- A clock that ends in a fault makes the first of its transfers up to the one that nobody answers
to. It leaves all registers but the counters as they are. The program counter has moved behind the
instruction and each immediate byte that was pulled or to be pulled; the stack pointer stands where
a pop was to read, or one down if the first store of a call has gone through; and that store is all
that has happened to the memories. -/
theorem fault_confined (m : Machine (Attachment Memory)) (f : Fault) (hm : m.isRunning = true)
    (h : m.clock.2.state = .halted (.fault f)) :
    let rs := m.registers
    let rs' := m.clock.2.registers
    let made := m.transfers .clock
    let top : Address := Effect.stackPage + rs.s.toUInt16
    (made <+: m.demands.map Demand.request ∧ (m.instruction?.isSome → 2 ≤ made.length) ∧
      ∀ access a, f = .noDeviceResponded access a → made.getLast? = some ⟨access, a⟩) ∧
    (rs'.a = rs.a ∧ rs'.b = rs.b ∧ rs'.q = rs.q ∧ rs'.h = rs.h ∧ rs'.l = rs.l ∧ rs'.c = rs.c) ∧
    rs'.p = rs.p + 1 + .ofNat m.pulls ∧
    rs'.s = (match m.instruction? with
      | some .pop => rs.s + 1
      | some .ret => rs.s + .ofNat (made.length - 1)
      | some .subr => rs.s - .ofNat (made.length - 2)
      | _ => rs.s) ∧
    List.Forall₂ (fun d d' : Attachment Memory =>
      d'.limits = d.limits ∧ d'.core.width = d.core.width ∧
      ∀ i, d'.core.cell i = if m.instruction? = some .subr ∧ made.length = 3 ∧
          d.passes top = true ∧ i = d.core.index top then highByte (rs.p + 1)
        else d.core.cell i) m.bus.devices m.clock.2.bus.devices := by
  intro rs rs' made top
  have hfirst : made <+: m.demands.map Demand.request := by
    have hmade : made = _ := transfers_clock hm
    rw [hmade]
    exact (m.bus.served_prefix m.demands).map _
  have hregisters : rs' = _ := registers_of_fault hm h
  refine ⟨⟨hfirst, getLast?_transfers hm h⟩, ?_, ?_, ?_, ?_⟩
  · rw [hregisters]
    exact ⟨rfl, rfl, rfl, rfl, rfl, rfl⟩
  · rw [hregisters]
  · rw [hregisters]
  · rw [devices_of_fault hm h, List.forall₂_map_right_iff, List.forall₂_same]
    intro d _
    refine ⟨d.limits_putAll _, d.width_putAll _, ?_⟩
    intro i
    by_cases hsecond : m.instruction? = some .subr ∧ made.length = 3
    · obtain ⟨hop, hlength⟩ := hsecond
      rw [if_pos ⟨hop, hlength⟩]
      simp only [hop, hlength, true_and]
      exact d.cell_put _ i
    · have hnone : ¬(m.instruction? = some .subr ∧ made.length = 3 ∧
          d.passes top = true ∧ i = d.core.index top) := by
        rintro ⟨hop, hlength, -⟩
        exact hsecond ⟨hop, hlength⟩
      rw [if_neg hsecond, if_neg hnone]
      rfl

/-- A call with a stack of one cell, at the top of the page, behind two limiters. -/
theorem fault_confined_call :
    let program : Memory := ⟨1, #[44, 0], by decide, by decide, rfl⟩
    let stack : Memory := ⟨1, #[5, 7], by decide, by decide, rfl⟩
    let m : Machine (Attachment Memory) := .ofDevices
      [.limited (.bare program) true ⟨1, 0, by decide, by decide⟩,
        .limited (.limited (.bare stack) true ⟨16, 0xFFFF, by decide, by decide⟩) false .any]
    m.clock.2.state = .halted (.fault (.noDeviceResponded .write 0xFFFE)) ∧
      m.transfers .clock = [⟨.read, 0⟩, ⟨.write, 0xFFFF⟩, ⟨.write, 0xFFFE⟩] ∧
      m.clock.2.registers.p = 1 ∧ m.clock.2.registers.s = 254 ∧
      m.clock.2.bus.devices.map (fun d => [d.core.cell 0, d.core.cell 1]) = [[44, 0], [5, 0]] := by
  intro program stack m
  have hstate : m.clock.2.state = .halted (.fault (.noDeviceResponded .write 0xFFFE)) := by
    decide +kernel
  have htransfers : m.transfers .clock = [⟨.read, 0⟩, ⟨.write, 0xFFFF⟩, ⟨.write, 0xFFFE⟩] := by
    decide +kernel
  have hop : m.instruction? = some .subr := by decide +kernel
  have hpulls : m.pulls = 0 := by decide +kernel
  obtain ⟨-, -, hp, hs, hcells⟩ := fault_confined m _ rfl hstate
  rw [hpulls] at hp
  rw [hop, htransfers] at hs
  have hbefore : m.bus.devices = _ := Bus.devices_ofDevices _
  rw [hbefore] at hcells
  obtain ⟨d, _, ⟨-, -, hprogram⟩, hrest, hdevices⟩ := List.forall₂_cons_left_iff.1 hcells
  obtain ⟨e, _, ⟨-, -, hstack⟩, hnone, rfl⟩ := List.forall₂_cons_left_iff.1 hrest
  obtain rfl := List.forall₂_nil_left_iff.1 hnone
  refine ⟨hstate, htransfers, hp, hs.trans (by decide), ?_⟩
  rw [hdevices]
  simp only [List.map_cons, List.map_nil, hprogram, hstack, hop, htransfers]
  decide +kernel

end Machine

end Octet
