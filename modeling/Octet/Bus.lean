import Octet.Device
import Octet.Diagnostic

/-! # Buses

A bus offers every transfer to every mounted device, in the order in which they were mounted. The
answers to a read are joined bit by bit; one that nobody answers is a fault, and more than one answer
is a conflict, which is reported and goes through. Devices are known by the number under which they
were mounted; the numbers are counted in thirty-two bits.
-/

namespace Octet

structure Mounted (δ : Type) where
  id : Nat
  device : δ
deriving DecidableEq

structure Bus (δ : Type) where
  mounted : List (Mounted δ)
  nextId : Nat
deriving DecidableEq

/-- What came of a transfer: its result, and the diagnostics it raises. -/
structure Transfer (α : Type) where
  result : Except Fault α
  raised : List Diagnostic

namespace Bus

variable {δ : Type}

def empty : Bus δ := ⟨[], 0⟩

def mount (bus : Bus δ) (d : δ) : Nat × Bus δ :=
  (bus.nextId, ⟨bus.mounted ++ [⟨bus.nextId, d⟩], (bus.nextId + 1) % UInt32.size⟩)

def ofDevices (ds : List δ) : Bus δ := ds.foldl (fun bus d => (bus.mount d).2) empty

def ids (bus : Bus δ) : List Nat := bus.mounted.map (·.id)

def device? (bus : Bus δ) (id : Nat) : Option δ :=
  (bus.mounted.find? (·.id == id)).map (·.device)

/-- Takes a device off the bus; the others stay as they are. -/
def unmount? (bus : Bus δ) (id : Nat) : Option (δ × Bus δ) :=
  (bus.device? id).map fun d => (d, { bus with mounted := bus.mounted.eraseP (·.id == id) })

def setDevice (bus : Bus δ) (id : Nat) (d : δ) : Bus δ :=
  { bus with mounted := bus.mounted.map fun m => if m.id == id then { m with device := d } else m }

variable [Device δ]

def reset (bus : Bus δ) : Bus δ :=
  { bus with mounted := bus.mounted.map fun m => { m with device := Device.reset m.device } }

/-- Offers a read to every device: their answers and their next states, in the same order. -/
def readAll (a : Address) : List (Mounted δ) → List (Option Byte) × List (Mounted δ)
  | [] => ([], [])
  | ⟨id, d⟩ :: ms =>
    let (answer, d) := Device.read d a
    let (answers, ms) := readAll a ms
    (answer :: answers, ⟨id, d⟩ :: ms)

/-- Offers a write to every device: who accepted it, and their next states, in the same order. -/
def writeAll (a : Address) (v : Byte) : List (Mounted δ) → List Bool × List (Mounted δ)
  | [] => ([], [])
  | ⟨id, d⟩ :: ms =>
    let (accepted, d) := Device.write d a v
    let (answers, ms) := writeAll a v ms
    (accepted :: answers, ⟨id, d⟩ :: ms)

/-- The bytes joined bit by bit. -/
def joined (bytes : List Byte) : Byte := bytes.foldl (· ||| ·) 0

/-- Decides a transfer by the number of devices that took part in it. -/
def arbitrate {α : Type} (access : Access) (a : Address) (count : Nat) (value : α) : Transfer α :=
  match count with
  | 0 => ⟨.error (.noDeviceResponded access a), []⟩
  | 1 => ⟨.ok value, []⟩
  | _ => ⟨.ok value, [.multipleResponders access a count]⟩

def read : Bus δ → Address → Transfer Byte × Bus δ
  | ⟨mounted, nextId⟩, a =>
    let (answers, mounted) := readAll a mounted
    let bytes := answers.filterMap id
    (arbitrate .read a bytes.length (joined bytes), ⟨mounted, nextId⟩)

def write : Bus δ → Address → Byte → Transfer Unit × Bus δ
  | ⟨mounted, nextId⟩, a, v =>
    let (answers, mounted) := writeAll a v mounted
    (arbitrate .write a (answers.count true) (), ⟨mounted, nextId⟩)

theorem ids_readAll (a : Address) (ms : List (Mounted δ)) :
    (readAll a ms).2.map (·.id) = ms.map (·.id) := by
  induction ms with
  | nil => rfl
  | cons m ms ih => simp [readAll, ih]

theorem ids_writeAll (a : Address) (v : Byte) (ms : List (Mounted δ)) :
    (writeAll a v ms).2.map (·.id) = ms.map (·.id) := by
  induction ms with
  | nil => rfl
  | cons m ms ih => simp [writeAll, ih]

@[simp] theorem ids_read (bus : Bus δ) (a : Address) : (bus.read a).2.ids = bus.ids :=
  ids_readAll a bus.mounted

@[simp] theorem ids_write (bus : Bus δ) (a : Address) (v : Byte) : (bus.write a v).2.ids = bus.ids :=
  ids_writeAll a v bus.mounted

end Bus

end Octet
