import Octet.Proofs.Machine.Configuration
import Octet.Proofs.Machine.Recorder

/-! # Static routing

The memories that take part in a transfer are those with whose digits its address begins. No program
and no host changes that: what a configured machine says about a transfer, at any time, can be read
off its configuration.
-/

namespace Octet

variable {δ : Type} [Device δ] [Device.Steady δ]

namespace Bus

omit [Device.Steady δ] in
theorem diagnostics_read (bus : Bus δ) (a : Address) :
    (bus.read a).1.diagnostics = verdict ⟨.read, a⟩ (responders bus.devices a) := by
  rw [transfer_read, diagnostics_arbitrate, length_answers]

theorem diagnostics_write (bus : Bus δ) (a : Address) (v : Byte) :
    (bus.write a v).1.diagnostics = verdict ⟨.write, a⟩ (responders bus.devices a) := by
  rw [transfer_write, diagnostics_arbitrate, accepting_eq_responders]

end Bus

theorem Machine.responders_operateAll (m : Machine δ) (ops : List Operation) :
    Bus.responders (m.operateAll ops).2.bus.devices = Bus.responders m.bus.devices := by
  apply m.operateAll_keeps (P := fun b => Bus.responders b.devices = Bus.responders m.bus.devices)
  · exact fun b a h => (b.responders_read a).trans h
  · exact fun b a v h => (b.responders_write a v).trans h
  · exact fun b h => b.responders_reset.trans h
  · rfl

namespace MachineConfig

variable {config : MachineConfig} {m : Machine (RangeLimiter Memory)}

theorem responders_of_machine (h : config.machine = .ok m) :
    Bus.responders m.bus.devices = config.admitting := by
  obtain ⟨ds, hds, rfl⟩ := exists_devices_of_machine h
  funext a
  rw [Machine.ofDevices, Machine.ofBus, Bus.devices_ofDevices, admitting, ← countP_passes hds a]
  simp only [Bus.responders, RangeLimiter.responds_eq, Memory.responds_eq, Bool.and_true]

/-- Whatever has been done to a configured machine, a transfer finds no device just where the address
begins with the digits of no memory, and reports a conflict just where it begins with those of more
than one, of that number. What an operation says about transfers is this for each of the transfers
that it makes, in their order; a recorder beside the devices, which takes them down, makes no
difference to the answer. -/
theorem transfers_routed (config : MachineConfig) (m : Machine (RangeLimiter Memory))
    (h : config.machine = .ok m) (ops : List Operation) :
    let used := (m.operateAll ops).2
    (∀ a, (used.bus.read a).1.diagnostics = Bus.verdict ⟨.read, a⟩ (config.admitting a)) ∧
    (∀ a v, (used.bus.write a v).1.diagnostics = Bus.verdict ⟨.write, a⟩ (config.admitting a)) ∧
    ∀ op, (used.observed.operate op).1 = (used.operate op).1 ∧
      (used.operate op).1.diagnostics.filter (·.ofTransfer) =
        (used.transfers op).flatMap fun r => Bus.verdict r (config.admitting r.address) := by
  intro used
  have hcount : Bus.responders used.bus.devices = config.admitting :=
    (m.responders_operateAll ops).trans (responders_of_machine h)
  rw [← hcount]
  exact ⟨used.bus.diagnostics_read, used.bus.diagnostics_write,
    fun op => ⟨used.operate_observed op, used.diagnostics_operate op⟩⟩

/-- A program that reads from where two memories overlap and pops from where there is none. -/
theorem transfers_routed_overlap :
    let config : MachineConfig := ⟨[⟨3, some ['0']⟩, ⟨8, some ['0', '1']⟩]⟩
    let ops : List Operation := [.load [⟨0, 2⟩, ⟨1, 0x40⟩, ⟨2, 1⟩, ⟨3, 3⟩, ⟨4, 43⟩]]
    ∃ m, config.machine = .ok m ∧
      ((m.operateAll ops).2.transfers (.run 9)).map (·.address) = [0, 1, 2, 3, 0x4001, 4, 0xFF00] ∧
      ((m.operateAll ops).2.operate (.run 9)).1.diagnostics.filter (·.ofTransfer) =
        [.multipleResponders .read 0x4001 2, .fault (.noDeviceResponded .read 0xFF00)] := by
  intro config ops
  obtain ⟨m, h⟩ : ∃ m, config.machine = .ok m := ⟨_, rfl⟩
  have htransfers : config.machine.map (fun m => (m.operateAll ops).2.transfers (.run 9)) =
      .ok [⟨.read, 0⟩, ⟨.read, 1⟩, ⟨.read, 2⟩, ⟨.read, 3⟩, ⟨.read, 0x4001⟩, ⟨.read, 4⟩,
        ⟨.read, 0xFF00⟩] := by decide +kernel
  have hused := Except.ok.inj ((congrArg (Except.map _) h).symm.trans htransfers)
  obtain ⟨-, -, hroute⟩ := transfers_routed config m h ops
  obtain ⟨-, hsaid⟩ := hroute (.run 9)
  refine ⟨m, h, congrArg (List.map (·.address)) hused, hsaid.trans ?_⟩
  rw [hused]
  decide +kernel

end MachineConfig

end Octet
