import Octet.Machine.Run

/-! # Laws of effects

A law says how the cycle in which an effect ends, and the fault in which it may end, lie to the cycle
in which it began. What every instruction does is put together from transfers, changes of registers
and the reports of counters that have gone round, so a law that holds of these and of one effect
behind another holds of everything that a clock does.
-/

namespace Octet

/-- Whether it is reported that a counter has gone round. -/
def Diagnostic.isWrap : Diagnostic → Bool
  | .programCounterWrapped | .stackPointerUnderflow | .stackPointerOverflow => true
  | _ => false

def Transfer.fault? {α : Type} (t : Transfer α) : Option Fault :=
  match t.result with
  | .ok _ => none
  | .error f => some f

namespace Effect

variable {δ α β : Type}

def final : EStateM.Result Fault (Cycle δ) α → Cycle δ
  | .ok _ c => c
  | .error _ c => c

def fault? : EStateM.Result Fault (Cycle δ) α → Option Fault
  | .ok _ _ => none
  | .error f _ => some f

/-- From every cycle the effect ends as the law says. -/
def Obeys (S : Cycle δ → Cycle δ → Option Fault → Prop) (x : Effect δ α) : Prop :=
  ∀ c, S c (final (x c)) (fault? (x c))

/-- What makes a relation of cycles and faults a law. -/
structure Law [Device δ] (S : Cycle δ → Cycle δ → Option Fault → Prop) : Prop where
  refl : ∀ c, S c c none
  trans : ∀ {c d e f}, S c d none → S d e f → S c e f
  update : ∀ {c d f}, S c d f → ∀ rs, S c { d with registers := rs } f
  wrap : ∀ {c d f}, S c d f → ∀ w : Diagnostic, w.isWrap = true →
    S c { d with raised := d.raised ++ [w] } f
  invalid : ∀ c byte, S c c (some (.invalidInstruction byte))
  transfer_read : ∀ c a, S c ⟨c.registers, (c.bus.read a).2, c.raised ++ (c.bus.read a).1.raised⟩
    (c.bus.read a).1.fault?
  transfer_write : ∀ c a v,
    S c ⟨c.registers, (c.bus.write a v).2, c.raised ++ (c.bus.write a v).1.raised⟩
      (c.bus.write a v).1.fault?

@[simp] theorem final_conclude (t : Transfer α) (c : Cycle δ) : final (conclude t.result c) = c := by
  cases h : t.result <;> simp [conclude, final]

@[simp] theorem fault?_conclude (t : Transfer α) (c : Cycle δ) :
    fault? (conclude t.result c) = t.fault? := by
  cases h : t.result <;> simp [conclude, fault?, Transfer.fault?, h]

namespace Law

variable [Device δ] {S : Cycle δ → Cycle δ → Option Fault → Prop} (hS : Law S)
include hS

theorem obeys_pure (v : α) : Obeys S (pure v) := hS.refl

theorem obeys_bind {x : Effect δ α} {f : α → Effect δ β} (hx : Obeys S x)
    (hf : ∀ v, Obeys S (f v)) : Obeys S (x >>= f) := by
  intro c
  have hend := hx c
  simp only [bind, EStateM.bind]
  generalize x c = r at hend
  cases r with
  | ok v d => exact hS.trans hend (hf v d)
  | error f d => exact hend

theorem obeys_registers : Obeys S registers := hS.refl

theorem obeys_modifyRegisters (f : RegisterFile → RegisterFile) : Obeys S (modifyRegisters f) :=
  fun c => hS.update (hS.refl c) (f c.registers)

theorem obeys_warn (condition : Bool) {w : Diagnostic} (hw : w.isWrap = true) :
    Obeys S (warn condition w) := by
  intro c
  cases condition with
  | false => exact hS.refl c
  | true => exact hS.wrap (hS.refl c) w hw

theorem obeys_ofOption (byte : Byte) (v : Option α) :
    Obeys S (ofOption (.invalidInstruction byte) v) := by
  intro c
  cases v with
  | some v => exact hS.refl c
  | none => exact hS.invalid c byte

theorem obeys_read (a : Address) : Obeys S (read a) := by
  intro c
  simpa only [Effect.read, final_conclude, fault?_conclude] using hS.transfer_read c a

theorem obeys_write (a : Address) (v : Byte) : Obeys S (write a v) := by
  intro c
  simpa only [Effect.write, final_conclude, fault?_conclude] using hS.transfer_write c a v

theorem obeys_fetch : Obeys S fetch := by
  intro c
  simp only [Effect.fetch, final_conclude, fault?_conclude]
  have hread := hS.update (hS.transfer_read c c.registers.p)
    { c.registers with p := c.registers.p + 1 }
  split
  · exact hS.wrap hread _ rfl
  · rwa [List.append_nil]

theorem obeys_push (v : Byte) : Obeys S (push v) :=
  hS.obeys_bind hS.obeys_registers fun _ => hS.obeys_bind (hS.obeys_write _ v) fun _ =>
    hS.obeys_bind (hS.obeys_modifyRegisters _) fun _ => hS.obeys_warn _ rfl

theorem obeys_pop : Obeys S pop :=
  hS.obeys_bind (hS.obeys_modifyRegisters _) fun _ => hS.obeys_bind hS.obeys_registers fun _ =>
    hS.obeys_bind (hS.obeys_warn _ rfl) fun _ => hS.obeys_read _

theorem obeys_execute (op : Opcode) : Obeys S (execute op) := by
  cases op with
  | adr =>
    exact hS.obeys_bind hS.obeys_fetch fun _ => hS.obeys_bind hS.obeys_fetch fun _ =>
      hS.obeys_modifyRegisters _
  | cla | clb | clq => exact hS.obeys_bind hS.obeys_fetch fun _ => hS.obeys_modifyRegisters _
  | lda =>
    exact hS.obeys_bind hS.obeys_registers fun _ => hS.obeys_bind (hS.obeys_read _) fun _ =>
      hS.obeys_modifyRegisters _
  | sta => exact hS.obeys_bind hS.obeys_registers fun _ => hS.obeys_write _ _
  | psh => exact hS.obeys_bind hS.obeys_registers fun _ => hS.obeys_push _
  | pop => exact hS.obeys_bind hS.obeys_pop fun _ => hS.obeys_modifyRegisters _
  | subr =>
    exact hS.obeys_bind hS.obeys_registers fun _ => hS.obeys_bind (hS.obeys_push _) fun _ =>
      hS.obeys_bind (hS.obeys_push _) fun _ => hS.obeys_modifyRegisters _
  | ret =>
    exact hS.obeys_bind hS.obeys_pop fun _ => hS.obeys_bind hS.obeys_pop fun _ =>
      hS.obeys_modifyRegisters _
  | _ => exact hS.obeys_modifyRegisters (·.after _)

theorem obeys_step : Obeys S step :=
  hS.obeys_bind hS.obeys_fetch fun byte => hS.obeys_bind (hS.obeys_ofOption byte _) fun op =>
    hS.obeys_bind (hS.obeys_execute op) fun _ => hS.obeys_pure op

end Law

end Effect

/-- What a clock of a running machine comes to: the law leads from the machine to a cycle, and the
machine runs on, has carried out the halting instruction, or has met a fault. -/
inductive Machine.Clocking {δ : Type} [Device δ] (S : Cycle δ → Cycle δ → Option Fault → Prop)
    (m : Machine δ) : Prop
  | runs (c : Cycle δ) (hS : S ⟨m.registers, m.bus, []⟩ c none)
    (h : m.clock = (⟨m.registers.p, c.raised, true⟩, ⟨c.registers, c.bus, .running⟩))
  | halts (c : Cycle δ) (hS : S ⟨m.registers, m.bus, []⟩ c none)
    (h : m.clock = (⟨m.registers.p, c.raised ++ [.halting], false⟩,
      ⟨c.registers, c.bus, .halted .instruction⟩))
  | faults (f : Fault) (c : Cycle δ) (hS : S ⟨m.registers, m.bus, []⟩ c (some f))
    (h : m.clock = (⟨m.registers.p, c.raised ++ [.fault f], false⟩,
      ⟨c.registers, c.bus, .halted (.fault f)⟩))

theorem Effect.Law.clocking {δ : Type} [Device δ] {S : Cycle δ → Cycle δ → Option Fault → Prop}
    (hS : Law S) {m : Machine δ} (hm : m.isRunning = true) : m.Clocking S := by
  obtain ⟨rs, bus, state⟩ := m
  cases state with
  | halted reason => cases hm
  | running =>
    have hstep := hS.obeys_step ⟨rs, bus, []⟩
    generalize hr : Effect.step ⟨rs, bus, []⟩ = r at hstep
    cases r with
    | ok op c =>
      by_cases hop : op = .hlt
      · subst hop
        exact .halts c hstep (by simp only [Machine.clock, hr])
      · exact .runs c hstep (by simp only [Machine.clock, hr])
    | error f c => exact .faults f c hstep (by simp only [Machine.clock, hr])

end Octet
