import Octet.Memory
import Octet.Proofs.Bus.Transfer
import Octet.Proofs.Machine.Simulation

/-! # The order of the devices on the bus

Which device was mounted first, and under which numbers they are mounted, decides nothing: a transfer
joins what all devices answer and counts them, and each device goes its own way. So machines whose
buses hold the same devices in another order cannot be told apart, and a device can be unmounted and
mounted again without a trace.
-/

namespace Octet

namespace Bus

theorem joined_perm {xs ys : List Byte} (h : xs.Perm ys) : joined xs = joined ys := by
  refine h.foldl_eq' (fun x _ y _ z => ?_) 0
  rw [UInt8.or_assoc, UInt8.or_comm x y, ← UInt8.or_assoc]

variable {δ : Type} [Device δ]

/-- Buses with the same devices, in whatever order and under whatever numbers. -/
theorem bisimulation_perm : Bisimulation fun b c : Bus δ => b.devices.Perm c.devices where
  read {b c} h a := by
    have hanswers : (answers a b.devices).Perm (answers a c.devices) := h.filterMap _
    constructor
    · rw [transfer_read, transfer_read, hanswers.length_eq, joined_perm hanswers]
    · simp only [devices_read]
      exact h.map _
  write {b c} h a v := by
    have haccepting : accepting a v b.devices = accepting a v c.devices := h.countP_eq _
    constructor
    · rw [transfer_write, transfer_write, haccepting]
    · simp only [devices_write]
      exact h.map _
  reset {b c} h := by
    simp only [devices_reset]
    exact h.map _

omit [Device δ] in
theorem devices_mount_of_unmount? {bus bus' : Bus δ} {id : Nat} {d : δ}
    (h : bus.unmount? id = some (d, bus')) : (bus'.mount d).2.devices.Perm bus.devices := by
  obtain ⟨_, hdevice, heq⟩ := Option.map_eq_some_iff.1 h
  obtain ⟨rfl, rfl⟩ := Prod.mk.inj heq
  obtain ⟨x, hfind, rfl⟩ := Option.map_eq_some_iff.1 hdevice
  obtain ⟨hid, before, behind, hmounted, hbefore⟩ := List.find?_eq_some_iff_append.1 hfind
  have herase : bus.mounted.eraseP (·.id == id) = before ++ behind := by
    rw [hmounted, List.eraseP_append_right _ (fun m hm => by simpa using hbefore m hm),
      List.eraseP_cons, hid]
    rfl
  rw [devices_mount, devices, devices, herase, hmounted, List.map_append, List.map_append,
    List.map_cons, List.append_assoc]
  exact (List.perm_append_singleton _ _).append_left _

end Bus

namespace Machine

variable {δ : Type}

/-- Unmounts a device and mounts it again, behind all others and under a new number. -/
def remount? (m : Machine δ) (id : Nat) : Option (Machine δ) :=
  (m.bus.unmount? id).map fun (d, bus) => { m with bus := (bus.mount d).2 }

theorem agree_of_remount? {m m' : Machine δ} {id : Nat} (h : m.remount? id = some m') :
    m'.Agree (fun b c => b.devices.Perm c.devices) m := by
  obtain ⟨⟨d, bus⟩, hunmount, rfl⟩ := Option.map_eq_some_iff.1 h
  exact ⟨rfl, Bus.devices_mount_of_unmount? hunmount, rfl⟩

variable [Device δ]

/-- Machines with equal registers, equal run states and the same devices in another order and under
other numbers are seen to do the same, and keep the same devices. So are a machine of which a device
has been unmounted and mounted again, at any time, and the machine that was left alone. -/
theorem operateAll_of_devices_perm (m n : Machine δ) (hregisters : m.registers = n.registers)
    (hstate : m.state = n.state) (hdevices : m.bus.devices.Perm n.bus.devices)
    (ops : List Operation) :
    (m.operateAll ops).1 = (n.operateAll ops).1 ∧
    (m.operateAll ops).2.registers = (n.operateAll ops).2.registers ∧
    (m.operateAll ops).2.state = (n.operateAll ops).2.state ∧
    (m.operateAll ops).2.bus.devices.Perm (n.operateAll ops).2.bus.devices ∧
    ∀ id m', (m.operateAll ops).2.remount? id = some m' → ∀ rest,
      (m'.operateAll rest).1 = ((m.operateAll ops).2.operateAll rest).1 ∧
      (m'.operateAll rest).2.bus.devices.Perm
        ((m.operateAll ops).2.operateAll rest).2.bus.devices := by
  have hagree : m.Agree (fun b c => b.devices.Perm c.devices) n := ⟨hregisters, hdevices, hstate⟩
  obtain ⟨hseen, hend⟩ := hagree.operateAll Bus.bisimulation_perm ops
  refine ⟨hseen, hend.registers, hend.state, hend.bus, fun id m' hm' rest => ?_⟩
  obtain ⟨hseen, hend⟩ := (agree_of_remount? hm').operateAll Bus.bisimulation_perm rest
  exact ⟨hseen, hend.bus⟩

/-- Two memories that answer every read together. -/
theorem operateAll_of_devices_perm_swapped :
    let x : Memory := ⟨1, #[36, 1], by decide, by decide, rfl⟩
    let y : Memory := ⟨1, #[4, 42], by decide, by decide, rfl⟩
    let m : Machine Memory := .ofBus ⟨[⟨0, x⟩, ⟨1, y⟩], 2⟩
    let n : Machine Memory := .ofBus ⟨[⟨7, y⟩, ⟨3, x⟩], 8⟩
    let ops : List Operation := [.clock, .load [⟨5, 43⟩], .set .a 7, .run 2]
    m.registers = n.registers ∧ m.state = n.state ∧ m.bus.devices.Perm n.bus.devices ∧
      (m.operateAll ops).1 = (n.operateAll ops).1 ∧
      ∃ m', (m.operateAll ops).2.remount? 0 = some m' ∧
        (m'.operateAll ops).1 = ((m.operateAll ops).2.operateAll ops).1 := by
  intro x y m n ops
  have hperm : m.bus.devices.Perm n.bus.devices := .swap y x []
  obtain ⟨hseen, -, -, -, hremount⟩ := operateAll_of_devices_perm m n rfl rfl hperm ops
  have hmounted : ((m.operateAll ops).2.remount? 0).isSome = true := by decide +kernel
  obtain ⟨m', hm'⟩ := Option.isSome_iff_exists.1 hmounted
  exact ⟨rfl, rfl, hperm, hseen, m', hm', (hremount 0 m' hm' ops).1⟩

end Machine

end Octet
