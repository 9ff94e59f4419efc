import Octet.Proofs.Bus.Transfer

/-! # Signals

All that a device ever gets to see are reads, writes and resets. What it has received so far fixes its
state, and a bus sends each signal to every device that is mounted on it.
-/

namespace Octet

inductive Signal where
  | read (a : Address)
  | write (a : Address) (v : Byte)
  | reset
deriving DecidableEq, Repr

inductive Reply where
  | read (answer : Option Byte)
  | write (accepted : Bool)
  | reset
deriving DecidableEq, Repr

/-- The reply of a device that does not take part. A reset has no reply but that it is done. -/
def Signal.refusal : Signal → Reply
  | .read _ => .read none
  | .write _ _ => .write false
  | .reset => .reset

namespace Device

variable {δ : Type} [Device δ]

def reply (d : δ) : Signal → Reply
  | .read a => .read (Device.read d a).1
  | .write a v => .write (Device.write d a v).1
  | .reset => .reset

def receive (d : δ) : Signal → δ
  | .read a => (Device.read d a).2
  | .write a v => (Device.write d a v).2
  | .reset => Device.reset d

def receiveAll (d : δ) (signals : List Signal) : δ := signals.foldl receive d

theorem receiveAll_append (d : δ) (signals rest : List Signal) :
    receiveAll d (signals ++ rest) = receiveAll (receiveAll d signals) rest :=
  List.foldl_append

end Device

namespace Bus

variable {δ : Type} [Device δ]

def send (bus : Bus δ) : Signal → Bus δ
  | .read a => (bus.read a).2
  | .write a v => (bus.write a v).2
  | .reset => bus.reset

theorem mounted_send (bus : Bus δ) (s : Signal) :
    (bus.send s).mounted = bus.mounted.map fun m => ⟨m.id, Device.receive m.device s⟩ := by
  cases s with
  | read a => simp only [send, read, readAll_eq_map, Device.receive]
  | write a v => simp only [send, write, writeAll_eq_map, Device.receive]
  | reset => rfl

theorem nextId_send (bus : Bus δ) (s : Signal) : (bus.send s).nextId = bus.nextId := by
  cases s <;> rfl

theorem ids_send (bus : Bus δ) (s : Signal) : (bus.send s).ids = bus.ids := by
  rw [ids, mounted_send, List.map_map]
  rfl

end Bus

end Octet
