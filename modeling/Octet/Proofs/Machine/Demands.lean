import Octet.Proofs.Machine.Instruction
import Octet.Proofs.Machine.Recorder

/-! # What an instruction demands of the bus

The transfers of an instruction, with the bytes that it writes, are fixed by the registers before
it; no byte that it reads has a say in them. A clock makes them one by one up to the first that is
refused, and the registers at that point tell no more of the instruction than how far it came.
-/

namespace Octet

/-- A transfer with the byte that it carries to the bus. -/
inductive Demand where
  | read (a : Address)
  | write (a : Address) (v : Byte)
deriving DecidableEq, Repr

namespace Demand

def request : Demand → Request
  | .read a => ⟨.read, a⟩
  | .write a _ => ⟨.write, a⟩

def refusal (d : Demand) : Fault := .noDeviceResponded d.request.access d.request.address

/-- What the demand stores, if it is met. -/
def entry? : Demand → Option Image.Entry
  | .read _ => none
  | .write a v => some ⟨a, v⟩

end Demand

namespace Bus

section

variable {δ : Type} [Device δ]

def meet (bus : Bus δ) : Demand → Bool × Bus δ
  | .read a => ((bus.read a).1.fault?.isNone, (bus.read a).2)
  | .write a v => ((bus.write a v).1.fault?.isNone, (bus.write a v).2)

/-- Makes transfers up to the first one that is refused: those that are met, the refused one if
there is one, and the bus behind them. -/
def serve (bus : Bus δ) : List Demand → List Demand × Option Demand × Bus δ
  | [] => ([], none, bus)
  | d :: ds =>
    if (bus.meet d).1 then
      let (granted, refused?, bus) := (bus.meet d).2.serve ds
      (d :: granted, refused?, bus)
    else ([], some d, (bus.meet d).2)

theorem serve_cons_of_met {bus : Bus δ} {d : Demand} (h : (bus.meet d).1 = true)
    (ds : List Demand) : bus.serve (d :: ds) =
      (d :: ((bus.meet d).2.serve ds).1, ((bus.meet d).2.serve ds).2) := by
  rw [serve, if_pos h]

theorem serve_cons_of_refused {bus : Bus δ} {d : Demand} (h : (bus.meet d).1 = false)
    (ds : List Demand) : bus.serve (d :: ds) = ([], some d, (bus.meet d).2) := by
  rw [serve, if_neg (by simp [h])]

/-- All that can be made of a transfer: it is met and has a value, or it is refused. -/
theorem meet_read (bus : Bus δ) (a : Address) :
    (∃ v, (bus.read a).1.result = .ok v ∧ (bus.meet (.read a)).1 = true) ∨
    ((bus.read a).1.result = .error (Demand.read a).refusal ∧
      (bus.meet (.read a)).1 = false) := by
  cases h : (bus.read a).1.result with
  | ok v => exact .inl ⟨v, rfl, by simp [meet, Transfer.fault?, h]⟩
  | error f =>
    obtain ⟨-, rfl⟩ := of_read_error h
    exact .inr ⟨rfl, by simp [meet, Transfer.fault?, h]⟩

theorem meet_write (bus : Bus δ) (a : Address) (v : Byte) :
    ((bus.write a v).1.result = .ok () ∧ (bus.meet (.write a v)).1 = true) ∨
    ((bus.write a v).1.result = .error (Demand.write a v).refusal ∧
      (bus.meet (.write a v)).1 = false) := by
  cases h : (bus.write a v).1.result with
  | ok u => exact .inl ⟨rfl, by simp [meet, Transfer.fault?, h]⟩
  | error f =>
    obtain ⟨-, rfl⟩ := of_write_error h
    exact .inr ⟨rfl, by simp [meet, Transfer.fault?, h]⟩

end

section

variable {δ ε : Type} [Device δ] [Device ε] {R : Bus δ → Bus ε → Prop}

theorem serve_agree (hR : Bisimulation R) {b : Bus δ} {c : Bus ε} (h : R b c) (ds : List Demand) :
    (b.serve ds).1 = (c.serve ds).1 ∧ (b.serve ds).2.1 = (c.serve ds).2.1 := by
  induction ds generalizing b c with
  | nil => exact ⟨rfl, rfl⟩
  | cons d ds ih =>
    have hmeet : (b.meet d).1 = (c.meet d).1 ∧ R (b.meet d).2 (c.meet d).2 := by
      cases d with
      | read a =>
        obtain ⟨htransfer, hbus⟩ := hR.read h a
        exact ⟨congrArg (·.fault?.isNone) htransfer, hbus⟩
      | write a v =>
        obtain ⟨htransfer, hbus⟩ := hR.write h a v
        exact ⟨congrArg (·.fault?.isNone) htransfer, hbus⟩
    obtain ⟨hmet, hbus⟩ := hmeet
    cases hc : (c.meet d).1 with
    | false =>
      rw [serve_cons_of_refused (hmet.trans hc), serve_cons_of_refused hc]
      exact ⟨rfl, rfl⟩
    | true =>
      obtain ⟨hgranted, hrefused⟩ := ih hbus
      rw [serve_cons_of_met (hmet.trans hc), serve_cons_of_met hc, hgranted]
      exact ⟨rfl, hrefused⟩

/-- A recorder takes down the demands that are met and the one that is refused. -/
theorem Records.serve {bus : Bus (δ ⊕ Recorder)} {devices : List δ} {requests : List Request}
    (h : bus.Records devices requests) (ds : List Demand) :
    ∃ devices', (bus.serve ds).2.2.Records devices'
      (requests ++ ((bus.serve ds).1 ++ (bus.serve ds).2.1.toList).map Demand.request) := by
  induction ds generalizing bus devices requests with
  | nil =>
    refine ⟨devices, ?_⟩
    simpa only [Bus.serve, Option.toList_none, List.append_nil, List.map_nil] using h
  | cons d ds ih =>
    obtain ⟨devices', hmeet⟩ : ∃ devices',
        (bus.meet d).2.Records devices' (requests ++ [d.request]) := by
      cases d with
      | read a => exact ⟨_, h.read a⟩
      | write a v => exact ⟨_, h.write a v⟩
    cases hd : (bus.meet d).1 with
    | false =>
      rw [serve_cons_of_refused hd]
      exact ⟨devices', hmeet⟩
    | true =>
      obtain ⟨devices'', hrest⟩ := ih hmeet
      rw [serve_cons_of_met hd]
      refine ⟨devices'', ?_⟩
      rw [List.append_assoc] at hrest
      exact hrest

end

end Bus

namespace Opcode

def demands (op : Opcode) (rs : RegisterFile) : List Demand :=
  let cell (s : Byte) : Address := Effect.stackPage + s.toUInt16
  match op with
  | .adr => [.read rs.p, .read (rs.p + 1)]
  | .cla | .clb | .clq => [.read rs.p]
  | .lda => [.read rs.r]
  | .sta => [.write rs.r rs.a]
  | .psh => [.write (cell rs.s) rs.a]
  | .pop => [.read (cell (rs.s + 1))]
  | .subr => [.write (cell rs.s) (highByte rs.p), .write (cell (rs.s - 1)) (lowByte rs.p)]
  | .ret => [.read (cell (rs.s + 1)), .read (cell (rs.s + 1 + 1))]
  | _ => []

/-- The registers where the instruction is cut short after so many of its demands: a counter that is
read with has moved on by the refused demand too, one that is written with has not. -/
def interrupted (op : Opcode) (granted : Nat) (rs : RegisterFile) : RegisterFile :=
  match op with
  | .adr | .cla | .clb | .clq => rs.advance (granted + 1)
  | .pop | .ret => { rs with s := rs.s + .ofNat (granted + 1) }
  | .psh | .subr => { rs with s := rs.s - .ofNat granted }
  | _ => rs

end Opcode

theorem RegisterFile.advance_advance (rs : RegisterFile) (m n : Nat) :
    (rs.advance m).advance n = rs.advance (m + n) := by
  simp [advance, UInt16.add_assoc]

namespace Effect

variable {δ α β : Type} [Device δ]

/-- The effect makes one transfer and ends with it, in the one or the other register file. -/
inductive Asks (d : Demand) (failed done : RegisterFile) (bus : Bus δ) :
    EStateM.Result Fault (Cycle δ) α → Prop
  | met (v : α) (raised : List Diagnostic) (h : (bus.meet d).1 = true) :
    Asks d failed done bus (.ok v ⟨done, (bus.meet d).2, raised⟩)
  | refused (raised : List Diagnostic) (h : (bus.meet d).1 = false) :
    Asks d failed done bus (.error d.refusal ⟨failed, (bus.meet d).2, raised⟩)

section

variable (rs : RegisterFile) (bus : Bus δ) (raised : List Diagnostic)

theorem asks_read (a : Address) : Asks (.read a) rs rs bus (read a ⟨rs, bus, raised⟩) := by
  rcases bus.meet_read a with ⟨v, hresult, hmet⟩ | ⟨hresult, hmet⟩
  · simp only [read, hresult]
    exact .met v _ hmet
  · simp only [read, hresult]
    exact .refused _ hmet

theorem asks_write (a : Address) (v : Byte) :
    Asks (.write a v) rs rs bus (write a v ⟨rs, bus, raised⟩) := by
  rcases bus.meet_write a v with ⟨hresult, hmet⟩ | ⟨hresult, hmet⟩
  · simp only [write, hresult]
    exact .met () _ hmet
  · simp only [write, hresult]
    exact .refused _ hmet

theorem exists_fetch_eq : ∃ raised', fetch ⟨rs, bus, raised⟩ =
    conclude (bus.read rs.p).1.result ⟨rs.advance 1, (bus.meet (.read rs.p)).2, raised'⟩ :=
  ⟨_, rfl⟩

theorem asks_fetch :
    Asks (.read rs.p) (rs.advance 1) (rs.advance 1) bus (fetch ⟨rs, bus, raised⟩) := by
  obtain ⟨raised', hfetch⟩ := exists_fetch_eq rs bus raised
  rcases bus.meet_read rs.p with ⟨v, hresult, hmet⟩ | ⟨hresult, hmet⟩
  · rw [hfetch, hresult]
    exact .met v _ hmet
  · rw [hfetch, hresult]
    exact .refused _ hmet

theorem asks_push (v : Byte) : Asks (.write (stackPage + rs.s.toUInt16) v) rs
    { rs with s := rs.s - 1 } bus (push v ⟨rs, bus, raised⟩) := by
  have hwrite := asks_write rs bus raised (stackPage + rs.s.toUInt16) v
  simp only [push, bind, EStateM.bind, registers]
  generalize write (stackPage + rs.s.toUInt16) v ⟨rs, bus, raised⟩ = r at hwrite
  cases hwrite with
  | met u raised h => exact .met () _ h
  | refused raised h => exact .refused raised h

theorem asks_pop : Asks (.read (stackPage + (rs.s + 1).toUInt16)) { rs with s := rs.s + 1 }
    { rs with s := rs.s + 1 } bus (pop ⟨rs, bus, raised⟩) :=
  asks_read { rs with s := rs.s + 1 } bus _ (stackPage + (rs.s + 1).toUInt16)

end

/-- The effect makes the transfers in their order. It ends once they are all met, or else with the
one that is refused, in registers that the number of those before it decides. -/
inductive Serves (ds : List Demand) (cut : Nat → RegisterFile) (bus : Bus δ) :
    EStateM.Result Fault (Cycle δ) α → Prop
  | done (v : α) (c : Cycle δ) (h : bus.serve ds = (ds, none, c.bus)) : Serves ds cut bus (.ok v c)
  | refused (granted : List Demand) (r : Demand) (bus' : Bus δ) (raised : List Diagnostic)
    (h : bus.serve ds = (granted, some r, bus')) :
    Serves ds cut bus (.error r.refusal ⟨cut granted.length, bus', raised⟩)

namespace Serves

variable {d : Demand} {ds : List Demand} {done : RegisterFile} {cut : Nat → RegisterFile}
  {bus : Bus δ} {c : Cycle δ}

theorem of_asks_last {x : Effect δ α} (hx : Asks d (cut 0) done bus (x c)) :
    Serves [d] cut bus (x c) := by
  generalize x c = r at hx
  cases hx with
  | met v raised h => exact .done v _ (by rw [Bus.serve_cons_of_met h]; rfl)
  | refused raised h => exact .refused [] d _ raised (Bus.serve_cons_of_refused h [])

theorem of_asks {x : Effect δ α} {k : α → Effect δ β} (hx : Asks d (cut 0) done bus (x c))
    (hk : ∀ v raised, Serves ds (fun n => cut (n + 1)) (bus.meet d).2
      (k v ⟨done, (bus.meet d).2, raised⟩)) :
    Serves (d :: ds) cut bus ((x >>= k) c) := by
  simp only [bind, EStateM.bind]
  generalize x c = r at hx
  cases hx with
  | met v raised h =>
    have hrest := hk v raised
    dsimp only
    generalize k v _ = s at hrest
    cases hrest with
    | done w e hserve =>
      refine .done w e ?_
      rw [Bus.serve_cons_of_met h, hserve]
    | refused granted r bus' raised' hserve =>
      refine .refused (d :: granted) r bus' raised' ?_
      rw [Bus.serve_cons_of_met h, hserve]
  | refused raised h => exact .refused [] d _ raised (Bus.serve_cons_of_refused h ds)

end Serves

omit [Device δ] in
theorem registers_bind (k : RegisterFile → Effect δ α) (c : Cycle δ) :
    (registers >>= k) c = k c.registers c := rfl

/-- An instruction makes the transfers that it demands. -/
theorem serves_execute (op : Opcode) (rs : RegisterFile) (bus : Bus δ) (raised : List Diagnostic) :
    Serves (op.demands rs) (op.interrupted · rs) bus (execute op ⟨rs, bus, raised⟩) := by
  cases op with
  | adr =>
    refine .of_asks (asks_fetch rs bus raised) fun h raised' => ?_
    have hsecond := asks_fetch (rs.advance 1) (bus.meet (.read rs.p)).2 raised'
    rw [rs.advance_advance] at hsecond
    exact .of_asks hsecond fun l raised'' => .done () _ rfl
  | cla | clb | clq => exact .of_asks (asks_fetch rs bus raised) fun v raised' => .done () _ rfl
  | lda =>
    rw [execute, registers_bind]
    exact .of_asks (asks_read rs bus raised rs.r) fun v raised' => .done () _ rfl
  | sta =>
    rw [execute, registers_bind]
    exact .of_asks_last (asks_write rs bus raised rs.r rs.a)
  | psh =>
    have hnone : Opcode.psh.interrupted 0 rs = rs := by simp [Opcode.interrupted]
    have hpush := asks_push rs bus raised rs.a
    rw [execute, registers_bind]
    exact .of_asks_last (by rwa [hnone])
  | pop => exact .of_asks (asks_pop rs bus raised) fun v raised' => .done () _ rfl
  | subr =>
    have hnone : Opcode.subr.interrupted 0 rs = rs := by simp [Opcode.interrupted]
    have hpush := asks_push rs bus raised (highByte rs.p)
    rw [execute, registers_bind]
    refine .of_asks (by rwa [hnone]) fun u raised' => ?_
    exact .of_asks (asks_push { rs with s := rs.s - 1 } _ raised' (lowByte rs.p))
      fun u raised'' => .done () _ rfl
  | ret =>
    refine .of_asks (asks_pop rs bus raised) fun low raised' => ?_
    have htwo : { rs with s := rs.s + 1 + 1 } = Opcode.ret.interrupted 1 rs := by
      simp [Opcode.interrupted, UInt8.add_assoc]
    have hpop := asks_pop { rs with s := rs.s + 1 }
      (bus.meet (.read (stackPage + (rs.s + 1).toUInt16))).2 raised'
    rw [htwo] at hpop
    exact .of_asks hpop fun high raised'' => .done () _ rfl
  | _ => exact .done () _ rfl

end Effect

namespace Machine

variable {δ : Type} [Device δ]

/-- What the next clock of a running machine demands: the instruction, and what that demands. -/
def demands (m : Machine δ) : List Demand :=
  .read m.registers.p :: match m.instruction? with
    | some op => op.demands (m.registers.advance 1)
    | none => []

/-- What a clock of a running machine can come to. -/
inductive Course (m : Machine δ) : Prop
  | completed (op : Opcode) (hop : m.instruction? = some op)
    (hserve : m.bus.serve m.demands = (m.demands, none, m.clock.2.bus))
    (hstate : m.clock.2.state.fault? = none)
  | unfetched (hop : m.instruction? = none)
    (hserve : m.bus.serve m.demands = ([], some (.read m.registers.p), m.clock.2.bus))
    (hregisters : m.clock.2.registers = m.registers.advance 1)
    (hstate : m.clock.2.state = .halted (.fault (Demand.read m.registers.p).refusal))
  | undecoded (byte : Byte) (hop : m.instruction? = none)
    (hserve : m.bus.serve m.demands = ([.read m.registers.p], none, m.clock.2.bus))
    (hregisters : m.clock.2.registers = m.registers.advance 1)
    (hstate : m.clock.2.state = .halted (.fault (.invalidInstruction byte)))
  | interrupted (op : Opcode) (granted : List Demand) (r : Demand) (hop : m.instruction? = some op)
    (hserve : m.bus.serve m.demands = (.read m.registers.p :: granted, some r, m.clock.2.bus))
    (hregisters : m.clock.2.registers = op.interrupted granted.length (m.registers.advance 1))
    (hstate : m.clock.2.state = .halted (.fault r.refusal))

section

variable {rs : RegisterFile} {bus : Bus δ} {c : Cycle δ}

theorem clock_of_step_error {f : Fault} (h : Effect.step ⟨rs, bus, []⟩ = .error f c) :
    (Machine.mk rs bus .running).clock.2 = ⟨c.registers, c.bus, .halted (.fault f)⟩ := by
  rw [clock, h]

theorem clock_of_step_ok {op : Opcode} (h : Effect.step ⟨rs, bus, []⟩ = .ok op c) :
    (Machine.mk rs bus .running).clock.2 =
      ⟨c.registers, c.bus, if op = .hlt then .halted .instruction else .running⟩ := by
  rw [clock, h]
  cases op <;> rfl

theorem course_of_unanswered
    (hresult : (bus.read rs.p).1.result = .error (Demand.read rs.p).refusal)
    (hrefused : (bus.meet (.read rs.p)).1 = false) : (Machine.mk rs bus .running).Course := by
  obtain ⟨raised, hfetch⟩ := Effect.exists_fetch_eq rs bus []
  rw [hresult] at hfetch
  have hstep : Effect.step ⟨rs, bus, []⟩ = .error (Demand.read rs.p).refusal
      ⟨rs.advance 1, (bus.meet (.read rs.p)).2, raised⟩ := by
    simp only [Effect.step, bind, EStateM.bind, hfetch, Effect.conclude]
  have hclock := clock_of_step_error hstep
  have hinstruction : (Machine.mk rs bus .running).instruction? = none := by
    simp only [instruction?, hresult]
  refine .unfetched hinstruction ?_ (by rw [hclock]) (by rw [hclock])
  rw [demands, hinstruction, Bus.serve_cons_of_refused hrefused, hclock]

theorem course_of_byte {byte : Byte} (hresult : (bus.read rs.p).1.result = .ok byte)
    (hmet : (bus.meet (.read rs.p)).1 = true) : (Machine.mk rs bus .running).Course := by
  have hinstruction : (Machine.mk rs bus .running).instruction? = Opcode.ofByte? byte := by
    simp only [instruction?, hresult]
  obtain ⟨raised, hfetch⟩ := Effect.exists_fetch_eq rs bus []
  rw [hresult] at hfetch
  cases hop : Opcode.ofByte? byte with
  | none =>
    have hstep : Effect.step ⟨rs, bus, []⟩ = .error (.invalidInstruction byte)
        ⟨rs.advance 1, (bus.meet (.read rs.p)).2, raised⟩ := by
      rw [Effect.step, Effect.bind_of_ok hfetch, hop]
      rfl
    have hclock := clock_of_step_error hstep
    rw [hop] at hinstruction
    refine .undecoded byte hinstruction ?_ (by rw [hclock]) (by rw [hclock])
    rw [demands, hinstruction, Bus.serve_cons_of_met hmet, hclock]
    rfl
  | some op =>
    have hstep : Effect.step ⟨rs, bus, []⟩ = (Effect.execute op >>= fun _ => pure op)
        ⟨rs.advance 1, (bus.meet (.read rs.p)).2, raised⟩ := by
      rw [Effect.step, Effect.bind_of_ok hfetch, hop]
      rfl
    rw [hop] at hinstruction
    have hdemands : (Machine.mk rs bus .running).demands =
        .read rs.p :: op.demands (rs.advance 1) := by
      rw [demands, hinstruction]
    have hexecute := Effect.serves_execute op (rs.advance 1) (bus.meet (.read rs.p)).2 raised
    simp only [bind, EStateM.bind] at hstep
    generalize Effect.execute op ⟨rs.advance 1, (bus.meet (.read rs.p)).2, raised⟩ = r
      at hexecute hstep
    cases hexecute with
    | done u c hserve =>
      have hclock := clock_of_step_ok hstep
      refine .completed op hinstruction ?_ ?_
      · rw [hdemands, Bus.serve_cons_of_met hmet, hserve, hclock]
      · rw [hclock]
        by_cases hhlt : op = .hlt <;> simp [hhlt, RunState.fault?]
    | refused granted r bus' raised' hserve =>
      have hclock := clock_of_step_error hstep
      refine .interrupted op granted r hinstruction ?_ (by rw [hclock]) (by rw [hclock])
      rw [hdemands, Bus.serve_cons_of_met hmet, hserve, hclock]

end

theorem course {m : Machine δ} (hm : m.isRunning = true) : m.Course := by
  obtain ⟨rs, bus, state⟩ := m
  cases state with
  | halted reason => cases hm
  | running =>
    rcases bus.meet_read rs.p with ⟨byte, hresult, hmet⟩ | ⟨hresult, hrefused⟩
    · exact course_of_byte hresult hmet
    · exact course_of_unanswered hresult hrefused

theorem bus_clock {m : Machine δ} (hm : m.isRunning = true) :
    m.clock.2.bus = (m.bus.serve m.demands).2.2 := by
  cases course hm with
  | completed op hop hserve hstate => rw [hserve]
  | unfetched hop hserve hregisters hstate => rw [hserve]
  | undecoded byte hop hserve hregisters hstate => rw [hserve]
  | interrupted op granted r hop hserve hregisters hstate => rw [hserve]

theorem demands_observed (m : Machine δ) : m.observed.demands = m.demands := by
  obtain ⟨htransfer, -⟩ := Bus.bisimulation_records.read ⟨[], m.bus.records_record⟩ m.registers.p
  have hinstruction : m.observed.instruction? = m.instruction? := by
    unfold instruction?
    rw [htransfer]
    rfl
  rw [demands, demands, hinstruction]
  rfl

/-- The transfers of a clock are the demands that are met, and behind them the refused one. -/
theorem transfers_clock {m : Machine δ} (hm : m.isRunning = true) : m.transfers .clock =
    ((m.bus.serve m.demands).1 ++ (m.bus.serve m.demands).2.1.toList).map Demand.request := by
  have hobserved : m.observed.isRunning = true := hm
  obtain ⟨hgranted, hrefused⟩ :=
    Bus.serve_agree Bus.bisimulation_records ⟨[], m.bus.records_record⟩ m.demands
  obtain ⟨ds, hrecords⟩ := m.bus.records_record.serve m.demands
  have hbus : (m.observed.operate .clock).2.bus = (m.bus.record.serve m.demands).2.2 := by
    rw [← demands_observed]
    exact bus_clock hobserved
  rw [transfers, hbus, hrecords.log_eq, List.nil_append, hgranted, hrefused]

end Machine

end Octet
