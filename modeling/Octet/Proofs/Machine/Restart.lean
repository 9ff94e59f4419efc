import Octet.Proofs.Assembly.Outcome
import Octet.Proofs.Machine.Configuration
import Octet.Proofs.Machine.Simulation
import Octet.Session

/-! # Restarts

A reset takes a memory back to what it was at power-on, whatever has been stored in it, and through
range limiters and the bus this reaches every device. So a restarted machine is the machine as it was
configured, and a program loaded by a restart finds no trace of an earlier one.
-/

namespace Octet

/-- Devices whose reset undoes every transfer. -/
class Device.Erasable (δ : Type) [Device δ] : Prop where
  reset_read : ∀ (d : δ) a, Device.reset (Device.read d a).2 = Device.reset d
  reset_write : ∀ (d : δ) a v, Device.reset (Device.write d a v).2 = Device.reset d
  reset_reset : ∀ d : δ, Device.reset (Device.reset d) = Device.reset d

open Device.Erasable

instance : Device.Erasable Memory where
  reset_read _ _ := rfl
  reset_write _ _ _ := rfl
  reset_reset _ := rfl

instance {δ : Type} [Device δ] [Device.Erasable δ] : Device.Erasable (RangeLimiter δ) where
  reset_read l a := by
    rw [RangeLimiter.read_eq]
    split
    · simp only [RangeLimiter.reset_eq, reset_read]
    · rfl
  reset_write l a v := by
    rw [RangeLimiter.write_eq]
    split
    · simp only [RangeLimiter.reset_eq, reset_write]
    · rfl
  reset_reset l := by simp only [RangeLimiter.reset_eq, reset_reset]

variable {δ : Type} [Device δ] [Device.Erasable δ]

namespace Bus

theorem reset_read (bus : Bus δ) (a : Address) : (bus.read a).2.reset = bus.reset := by
  refine ext_devices ?_ ?_ rfl
  · rw [ids_reset, ids_reset, ids_read]
  · rw [devices_reset, devices_reset, devices_read, List.map_map]
    exact List.map_congr_left fun d _ => Device.Erasable.reset_read d a

theorem reset_write (bus : Bus δ) (a : Address) (v : Byte) :
    (bus.write a v).2.reset = bus.reset := by
  refine ext_devices ?_ ?_ rfl
  · rw [ids_reset, ids_reset, ids_write]
  · rw [devices_reset, devices_reset, devices_write, List.map_map]
    exact List.map_congr_left fun d _ => Device.Erasable.reset_write d a v

theorem reset_reset (bus : Bus δ) : bus.reset.reset = bus.reset := by
  refine ext_devices ?_ ?_ rfl
  · rw [ids_reset]
  · rw [devices_reset, devices_reset, List.map_map]
    exact List.map_congr_left fun d _ => Device.Erasable.reset_reset d

end Bus

namespace Machine

theorem restart_operateAll (m : Machine δ) (ops : List Operation) :
    (m.operateAll ops).2.restart = m.restart := by
  have hreset : (m.operateAll ops).2.bus.reset = m.bus.reset := by
    apply m.operateAll_keeps (P := fun b => b.reset = m.bus.reset)
    · exact fun b a h => (b.reset_read a).trans h
    · exact fun b a v h => (b.reset_write a v).trans h
    · exact fun b h => b.reset_reset.trans h
    · rfl
  exact congrArg ofBus hreset

section

omit [Device.Erasable δ]

variable (m : Machine δ) {c : Compilation}

theorem restartWith_of_error {e : ExportError} (h : c.image = .error e) :
    m.restartWith c = (.error e, m) := by
  rw [restartWith, h]

theorem restartWith_of_image {image : Image} (h : c.image = .ok image) :
    m.restartWith c = (.ok (m.restart.load image).1, (m.restart.load image).2) := by
  rw [restartWith, h]

theorem restartWith_error_iff (source : Text) :
    (∃ e, (m.restartWith (compile source)).1 = .error e) ↔ (compile source).hasErrors = true := by
  cases hc : (compile source).hasErrors with
  | true =>
    rw [m.restartWith_of_error (Compilation.image_of_hasErrors hc)]
    exact ⟨fun _ => rfl, fun _ => ⟨_, rfl⟩⟩
  | false =>
    obtain ⟨image, hi⟩ := exists_image hc
    rw [m.restartWith_of_image hi]
    constructor
    · rintro ⟨e, he⟩
      cases he
    · intro h
      cases h

end

end Machine

theorem MemoryConfig.Builds.reset {config : MemoryConfig} {l : RangeLimiter Memory}
    (h : config.Builds l) : Device.reset l = l := by
  have hclear : l.device.clear = l.device :=
    Memory.ext_cell rfl fun i => (l.device.cell_clear i).trans (h.cell i).symm
  rw [RangeLimiter.reset_eq]
  exact congrArg (fun d => { l with device := d }) hclear

namespace MachineConfig

variable {config : MachineConfig} {m : Machine (RangeLimiter Memory)}

theorem restart_of_machine (h : config.machine = .ok m) : m.restart = m := by
  obtain ⟨ds, hds, rfl⟩ := exists_devices_of_machine h
  have hreset : (Bus.ofDevices ds).reset = Bus.ofDevices ds := by
    refine Bus.ext_devices (Bus.ids_reset _) ?_ rfl
    rw [Bus.devices_reset, Bus.devices_ofDevices]
    refine (List.map_congr_left fun l hl => ?_).trans (List.map_id ds)
    obtain ⟨e, -, hbuilds⟩ := exists_of_mem_right hds hl
    exact hbuilds.reset
  exact congrArg Machine.ofBus hreset

/-- Whatever has been done to a configured machine, a restart gives the machine as it was configured:
registers and run state as at power-on, and behind each limiter a memory without contents. Restarting
it with a compilation refuses one that has errors, which leaves the machine alone, and otherwise does
to it what loading the image does to a new machine. -/
theorem restart_of_history (config : MachineConfig) (m : Machine (RangeLimiter Memory))
    (h : config.machine = .ok m) (ops : List Operation) :
    let used := (m.operateAll ops).2
    (used.restart = m ∧ m.registers = .initial ∧ m.state = .running ∧
      List.Forall₂ MemoryConfig.Builds config.memories m.bus.devices) ∧
    ∀ source,
      ((∃ e, (used.restartWith (compile source)).1 = .error e) ↔
        (compile source).hasErrors = true) ∧
      (∀ e, (compile source).image = .error e →
        used.restartWith (compile source) = (.error e, used)) ∧
      ∀ image, (compile source).image = .ok image →
        used.restartWith (compile source) = (.ok (m.load image).1, (m.load image).2) := by
  intro used
  have hrestart : used.restart = m := (m.restart_operateAll ops).trans (restart_of_machine h)
  refine ⟨⟨hrestart, ?_⟩, fun source => ⟨used.restartWith_error_iff source, fun e he => ?_,
    fun image hi => ?_⟩⟩
  · obtain ⟨ds, hds, rfl⟩ := exists_devices_of_machine h
    refine ⟨rfl, rfl, ?_⟩
    rw [Machine.ofDevices, Machine.ofBus, Bus.devices_ofDevices]
    exact hds
  · exact used.restartWith_of_error he
  · rw [used.restartWith_of_image hi, hrestart]

/-- A machine that a load into the gap between its memories has halted, and two programs, of which
one has an error. -/
theorem restart_of_history_halted :
    let config : MachineConfig := ⟨[⟨3, some ['0']⟩, ⟨8, some ['1', '1']⟩]⟩
    let ops : List Operation := [.write 5 44, .clock, .load [⟨0, 13⟩, ⟨0x8000, 7⟩], .run 9]
    ∃ m, config.machine = .ok m ∧ (m.operateAll ops).2.restart = m ∧
      ((m.operateAll ops).2.restartWith (compile "CLA".toList)).2 = (m.operateAll ops).2 ∧
      (m.operateAll ops).2.restartWith (compile "CLA 7".toList) =
        (.ok (m.load [⟨0, 13⟩, ⟨1, 7⟩]).1, (m.load [⟨0, 13⟩, ⟨1, 7⟩]).2) := by
  intro config ops
  have h : config.machine = .ok _ := rfl
  obtain ⟨⟨hrestart, -⟩, hwith⟩ := restart_of_history config _ h ops
  have hwrong : (compile "CLA".toList).image = .error (.hasErrors 1) := by decide +kernel
  have hright : (compile "CLA 7".toList).image = .ok [⟨0, 13⟩, ⟨1, 7⟩] := by decide +kernel
  refine ⟨_, h, hrestart, ?_, (hwith "CLA 7".toList).2.2 _ hright⟩
  rw [(hwith "CLA".toList).2.1 _ hwrong]

end MachineConfig

end Octet
