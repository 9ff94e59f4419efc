import Octet.MachineConfig
import Octet.Proofs.Bus.Transfer
import Octet.Proofs.Lists

/-! # Configured machines

What the devices of a configured machine are like at power-on: memories of the configured widths
without contents, each behind a limiter that lets through the addresses whose sixteen binary digits
begin with the configured ones.
-/

namespace Octet

/-- The binary digits with which the addresses of the memory begin. -/
def MemoryConfig.digits (config : MemoryConfig) : Text := config.range.getD []

def MemoryConfig.admits (config : MemoryConfig) (a : Address) : Bool :=
  config.digits.isPrefixOf (Numeral.fixed 2 16 a.toNat)

/-- The number of memories with whose digits the address begins. -/
def MachineConfig.admitting (config : MachineConfig) (a : Address) : Nat :=
  config.memories.countP (·.admits a)

/-- A limiter with a memory as this configuration describes them, in which nothing is stored yet. -/
structure MemoryConfig.Builds (config : MemoryConfig) (l : RangeLimiter Memory) : Prop where
  width : l.device.width = config.addressBits
  cell : ∀ i, l.device.cell i = 0
  enabled : l.enabled = config.range.isSome
  digits : l.range.text = config.digits

namespace MemoryConfig

variable {config : MemoryConfig} {l : RangeLimiter Memory}

theorem builds_of_device (h : config.device = .ok l) : config.Builds l := by
  obtain ⟨width, range⟩ := config
  cases hm : Memory.zeroed width with
  | error e => simp [device, hm, bind, Except.bind] at h
  | ok memory =>
    simp only [device, hm, bind, Except.bind] at h
    cases range with
    | none =>
      cases h
      exact ⟨Memory.width_zeroed hm, Memory.cell_zeroed hm, rfl, rfl⟩
    | some text =>
      cases hr : AddressRange.ofText text with
      | error e => simp [hr] at h
      | ok range =>
        simp only [hr] at h
        cases h
        exact ⟨Memory.width_zeroed hm, Memory.cell_zeroed hm, rfl, AddressRange.text_ofText hr⟩

theorem Builds.passes_eq_covers (h : config.Builds l) (a : Address) :
    l.passes a = l.range.covers a := by
  cases hrange : config.range with
  | some text => simp [RangeLimiter.passes, h.enabled, hrange]
  | none =>
    have htext : l.range.text = [] := by simp [h.digits, MemoryConfig.digits, hrange]
    have hcovers : l.range.covers a = true := by
      rw [AddressRange.covers_iff, htext]
      exact List.nil_prefix
    simp [RangeLimiter.passes, h.enabled, hrange, hcovers]

theorem Builds.passes_eq_admits (h : config.Builds l) (a : Address) :
    l.passes a = config.admits a := by
  rw [h.passes_eq_covers, admits, ← h.digits, Bool.eq_iff_iff, AddressRange.covers_iff,
    List.isPrefixOf_iff_prefix]

theorem Builds.length_range (h : config.Builds l) : l.range.length = config.digits.length := by
  rw [← h.digits, AddressRange.length_text]

end MemoryConfig

namespace MachineConfig

variable {config : MachineConfig} {m : Machine (RangeLimiter Memory)}

/-- A configured machine stands at power-on, with a device for each configured memory. -/
theorem exists_devices_of_machine (h : config.machine = .ok m) : ∃ ds,
    List.Forall₂ MemoryConfig.Builds config.memories ds ∧ m = .ofDevices ds := by
  cases hds : config.devices with
  | error e =>
    rw [machine, hds] at h
    cases h
  | ok ds =>
    rw [machine, hds] at h
    cases h
    exact ⟨ds, (mapM_eq_ok_iff.1 hds).imp fun _ _ => MemoryConfig.builds_of_device, rfl⟩

theorem countP_passes {memories : List MemoryConfig} {ds : List (RangeLimiter Memory)}
    (h : List.Forall₂ MemoryConfig.Builds memories ds) (a : Address) :
    ds.countP (·.passes a) = memories.countP (·.admits a) := by
  induction h with
  | nil => rfl
  | cons hbuilds _ ih => rw [List.countP_cons, List.countP_cons, ih, hbuilds.passes_eq_admits]

end MachineConfig

end Octet
