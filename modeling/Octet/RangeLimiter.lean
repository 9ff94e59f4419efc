import Octet.AddressRange
import Octet.Device

/-! # Range limiters

A range limiter stands before a device and, while enabled, hides it from every transfer outside one
address range. A hidden transfer does not reach the device; a reset always does.
-/

namespace Octet

structure RangeLimiter (δ : Type) where
  device : δ
  enabled : Bool
  range : AddressRange
deriving DecidableEq

namespace RangeLimiter

variable {δ : Type}

def unlimited (d : δ) : RangeLimiter δ := ⟨d, false, .any⟩

def limited (d : δ) (range : AddressRange) : RangeLimiter δ := ⟨d, true, range⟩

def passes (l : RangeLimiter δ) (a : Address) : Bool := !l.enabled || l.range.covers a

@[simp] theorem passes_unlimited (d : δ) (a : Address) : (unlimited d).passes a = true := rfl

@[simp] theorem passes_limited (d : δ) (range : AddressRange) (a : Address) :
    (limited d range).passes a = range.covers a := rfl

def setEnabled (l : RangeLimiter δ) (enabled : Bool) : RangeLimiter δ := { l with enabled }

/-- Sets the range, whether it is enforced or not. -/
def setRange (l : RangeLimiter δ) (range : AddressRange) : RangeLimiter δ := { l with range }

def replaceDevice (l : RangeLimiter δ) (d : δ) : δ × RangeLimiter δ :=
  (l.device, { l with device := d })

instance [Device δ] : Device (RangeLimiter δ) where
  read
    | ⟨d, enabled, range⟩, a =>
      if passes ⟨d, enabled, range⟩ a then
        let (answer, d) := Device.read d a
        (answer, ⟨d, enabled, range⟩)
      else (none, ⟨d, enabled, range⟩)
  write
    | ⟨d, enabled, range⟩, a, v =>
      if passes ⟨d, enabled, range⟩ a then
        let (accepted, d) := Device.write d a v
        (accepted, ⟨d, enabled, range⟩)
      else (false, ⟨d, enabled, range⟩)
  reset
    | ⟨d, enabled, range⟩ => ⟨Device.reset d, enabled, range⟩

variable [Device δ]

theorem read_eq (l : RangeLimiter δ) (a : Address) :
    Device.read l a = if l.passes a then
      ((Device.read l.device a).1, { l with device := (Device.read l.device a).2 })
    else (none, l) := rfl

theorem write_eq (l : RangeLimiter δ) (a : Address) (v : Byte) :
    Device.write l a v = if l.passes a then
      ((Device.write l.device a v).1, { l with device := (Device.write l.device a v).2 })
    else (false, l) := rfl

theorem reset_eq (l : RangeLimiter δ) : Device.reset l = { l with device := Device.reset l.device } :=
  rfl

end RangeLimiter

end Octet
