import Octet.Bus

/-! # Transfers and the devices on the bus

A transfer asks nothing of a bus but the list of its devices: what they answer decides the outcome,
each of them goes on to its own next state, and the numbers under which they are mounted stay.
-/

namespace Octet.Bus

variable {δ : Type}

def devices (bus : Bus δ) : List δ := bus.mounted.map (·.device)

theorem ext_mounted {ms ns : List (Mounted δ)} (hids : ms.map (·.id) = ns.map (·.id))
    (hdevices : ms.map (·.device) = ns.map (·.device)) : ms = ns := by
  induction ms generalizing ns with
  | nil => exact (List.map_eq_nil_iff.1 hids.symm).symm
  | cons m ms ih =>
    cases ns with
    | nil => cases hids
    | cons n ns =>
      obtain ⟨hid, hrest⟩ := List.cons.inj hids
      obtain ⟨hdevice, hrest'⟩ := List.cons.inj hdevices
      obtain ⟨id, d⟩ := m
      obtain ⟨id', d'⟩ := n
      obtain rfl : id = id' := hid
      obtain rfl : d = d' := hdevice
      rw [ih hrest hrest']

theorem ext_devices {b c : Bus δ} (hids : b.ids = c.ids) (hdevices : b.devices = c.devices)
    (hnext : b.nextId = c.nextId) : b = c := by
  obtain ⟨ms, i⟩ := b
  obtain ⟨ns, j⟩ := c
  obtain rfl : i = j := hnext
  obtain rfl : ms = ns := ext_mounted hids hdevices
  rfl

theorem devices_mount (bus : Bus δ) (d : δ) : (bus.mount d).2.devices = bus.devices ++ [d] := by
  simp [devices, mount]

theorem devices_ofDevices (ds : List δ) : (ofDevices ds).devices = ds := by
  have hfold (bus : Bus δ) :
      (ds.foldl (fun bus d => (bus.mount d).2) bus).devices = bus.devices ++ ds := by
    induction ds generalizing bus with
    | nil => simp
    | cons d ds ih => rw [List.foldl_cons, ih, devices_mount, List.append_assoc]; rfl
  exact hfold empty

variable [Device δ]

theorem readAll_eq_map (a : Address) (ms : List (Mounted δ)) :
    readAll a ms = (ms.map fun m => (Device.read m.device a).1,
      ms.map fun m => ⟨m.id, (Device.read m.device a).2⟩) := by
  induction ms with
  | nil => rfl
  | cons m ms ih => simp [readAll, ih]

theorem writeAll_eq_map (a : Address) (v : Byte) (ms : List (Mounted δ)) :
    writeAll a v ms = (ms.map fun m => (Device.write m.device a v).1,
      ms.map fun m => ⟨m.id, (Device.write m.device a v).2⟩) := by
  induction ms with
  | nil => rfl
  | cons m ms ih => simp [writeAll, ih]

def answers (a : Address) (ds : List δ) : List Byte := ds.filterMap fun d => (Device.read d a).1

/-- The number of devices that accept a byte. -/
def accepting (a : Address) (v : Byte) (ds : List δ) : Nat :=
  ds.countP fun d => (Device.write d a v).1

theorem transfer_read (bus : Bus δ) (a : Address) : (bus.read a).1 =
    arbitrate .read a (answers a bus.devices).length (joined (answers a bus.devices)) := by
  simp only [read, readAll_eq_map, answers, devices, List.filterMap_map, Function.comp_def, id_eq]

theorem transfer_write (bus : Bus δ) (a : Address) (v : Byte) :
    (bus.write a v).1 = arbitrate .write a (accepting a v bus.devices) () := by
  simp only [write, writeAll_eq_map, accepting, devices, List.count, List.countP_map]
  congr 2
  funext m
  simp

theorem of_arbitrate_error {α : Type} {access : Access} {a : Address} {count : Nat} {v : α}
    {f : Fault} (h : (arbitrate access a count v).result = .error f) :
    count = 0 ∧ f = .noDeviceResponded access a := by
  match count with
  | 0 => exact ⟨rfl, (Except.error.inj h).symm⟩
  | 1 | _ + 2 => cases h

/-- A read fails where nobody answers. -/
theorem of_read_error {bus : Bus δ} {a : Address} {f : Fault}
    (h : (bus.read a).1.result = .error f) :
    answers a bus.devices = [] ∧ f = .noDeviceResponded .read a := by
  rw [transfer_read] at h
  obtain ⟨hnone, hf⟩ := of_arbitrate_error h
  exact ⟨List.length_eq_zero_iff.1 hnone, hf⟩

theorem of_write_error {bus : Bus δ} {a : Address} {v : Byte} {f : Fault}
    (h : (bus.write a v).1.result = .error f) :
    accepting a v bus.devices = 0 ∧ f = .noDeviceResponded .write a := by
  rw [transfer_write] at h
  exact of_arbitrate_error h

theorem devices_read (bus : Bus δ) (a : Address) :
    (bus.read a).2.devices = bus.devices.map fun d => (Device.read d a).2 := by
  simp [read, readAll_eq_map, devices]

theorem devices_write (bus : Bus δ) (a : Address) (v : Byte) :
    (bus.write a v).2.devices = bus.devices.map fun d => (Device.write d a v).2 := by
  simp [write, writeAll_eq_map, devices]

theorem devices_reset (bus : Bus δ) : bus.reset.devices = bus.devices.map Device.reset := by
  simp [reset, devices]

theorem ids_reset (bus : Bus δ) : bus.reset.ids = bus.ids := by
  simp [reset, ids]

end Octet.Bus
