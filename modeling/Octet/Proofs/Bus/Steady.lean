import Octet.Proofs.Bus.Transfer
import Octet.Memory
import Octet.RangeLimiter

/-! # Steady devices

A steady device takes part in a transfer by its address alone, and nothing that happens to it changes
which addresses these are. On a bus of such devices the number of them that take part in a transfer
follows from its address for ever.
-/

namespace Octet

/-- Whether the device answers a read of the address. -/
def Device.responds {δ : Type} [Device δ] (d : δ) (a : Address) : Bool := (Device.read d a).1.isSome

class Device.Steady (δ : Type) [Device δ] : Prop where
  accepts : ∀ (d : δ) a v, (Device.write d a v).1 = Device.responds d a
  responds_read : ∀ (d : δ) a b, Device.responds (Device.read d a).2 b = Device.responds d b
  responds_write : ∀ (d : δ) a v b, Device.responds (Device.write d a v).2 b = Device.responds d b
  responds_reset : ∀ (d : δ) b, Device.responds (Device.reset d) b = Device.responds d b

open Device Device.Steady

@[simp] theorem Memory.responds_eq (m : Memory) (a : Address) : responds m a = true := rfl

instance : Steady Memory where
  accepts _ _ _ := rfl
  responds_read _ _ _ := rfl
  responds_write _ _ _ _ := rfl
  responds_reset _ _ := rfl

namespace RangeLimiter

variable {δ : Type} [Device δ]

theorem responds_eq (l : RangeLimiter δ) (a : Address) :
    responds l a = (l.passes a && responds l.device a) := by
  rw [responds, read_eq]
  cases l.passes a <;> rfl

instance [Steady δ] : Steady (RangeLimiter δ) where
  accepts l a v := by
    rw [responds_eq, write_eq]
    cases l.passes a with
    | false => rfl
    | true => exact accepts l.device a v
  responds_read l a b := by
    rw [responds_eq, responds_eq, read_eq]
    cases l.passes a with
    | false => rfl
    | true => exact congrArg (l.passes b && ·) (responds_read l.device a b)
  responds_write l a v b := by
    rw [responds_eq, responds_eq, write_eq]
    cases l.passes a with
    | false => rfl
    | true => exact congrArg (l.passes b && ·) (responds_write l.device a v b)
  responds_reset l b := by
    rw [responds_eq, responds_eq, reset_eq]
    exact congrArg (l.passes b && ·) (responds_reset l.device b)

end RangeLimiter

namespace Bus

variable {δ : Type} [Device δ]

/-- The number of devices that take part in a transfer to the address. -/
def responders (ds : List δ) (a : Address) : Nat := ds.countP (responds · a)

theorem length_answers (ds : List δ) (a : Address) : (answers a ds).length = responders ds a :=
  List.length_filterMap_eq_countP

theorem responders_map {f : δ → δ} (hf : ∀ d a, responds (f d) a = responds d a) (ds : List δ) :
    responders (ds.map f) = responders ds := by
  funext a
  simp only [responders, List.countP_map, Function.comp_def, hf]

variable [Steady δ]

theorem accepting_eq_responders (ds : List δ) (a : Address) (v : Byte) :
    accepting a v ds = responders ds a := by
  simp only [accepting, accepts, responders]

theorem responders_read (bus : Bus δ) (a : Address) :
    responders (bus.read a).2.devices = responders bus.devices := by
  rw [devices_read]
  exact responders_map (responds_read · a) _

theorem responders_write (bus : Bus δ) (a : Address) (v : Byte) :
    responders (bus.write a v).2.devices = responders bus.devices := by
  rw [devices_write]
  exact responders_map (responds_write · a v) _

theorem responders_reset (bus : Bus δ) : responders bus.reset.devices = responders bus.devices := by
  rw [devices_reset]
  exact responders_map responds_reset _

end Bus

end Octet
