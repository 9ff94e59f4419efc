import Octet.RangeLimiter

/-! # Attachments

What is mounted on a bus when devices may stand behind any number of range limiters: a device as it
is, or a limiter before another attachment.
-/

namespace Octet

inductive Attachment (δ : Type) where
  | bare (d : δ)
  | limited (inner : Attachment δ) (enabled : Bool) (range : AddressRange)
deriving DecidableEq

/-- The attachment that a limiter before an attachment is. -/
def RangeLimiter.attach {δ : Type} (l : RangeLimiter (Attachment δ)) : Attachment δ :=
  .limited l.device l.enabled l.range

namespace Attachment

variable {δ : Type} [Device δ]

def read : Attachment δ → Address → Option Byte × Attachment δ
  | .bare d, a =>
    let (answer, d) := Device.read d a
    (answer, .bare d)
  | .limited inner enabled range, a =>
    if !enabled || range.covers a then
      let (answer, inner) := inner.read a
      (answer, .limited inner enabled range)
    else (none, .limited inner enabled range)

def write : Attachment δ → Address → Byte → Bool × Attachment δ
  | .bare d, a, v =>
    let (accepted, d) := Device.write d a v
    (accepted, .bare d)
  | .limited inner enabled range, a, v =>
    if !enabled || range.covers a then
      let (accepted, inner) := inner.write a v
      (accepted, .limited inner enabled range)
    else (false, .limited inner enabled range)

def reset : Attachment δ → Attachment δ
  | .bare d => .bare (Device.reset d)
  | .limited inner enabled range => .limited inner.reset enabled range

instance : Device (Attachment δ) := ⟨read, write, reset⟩

theorem read_attach (l : RangeLimiter (Attachment δ)) (a : Address) :
    Device.read l.attach a = ((Device.read l a).1, (Device.read l a).2.attach) := by
  rw [RangeLimiter.read_eq]
  cases h : l.passes a <;> simp only [RangeLimiter.passes] at h <;>
    simp [Device.read, RangeLimiter.attach, read, h]

theorem write_attach (l : RangeLimiter (Attachment δ)) (a : Address) (v : Byte) :
    Device.write l.attach a v = ((Device.write l a v).1, (Device.write l a v).2.attach) := by
  rw [RangeLimiter.write_eq]
  cases h : l.passes a <;> simp only [RangeLimiter.passes] at h <;>
    simp [Device.write, RangeLimiter.attach, write, h]

theorem reset_attach (l : RangeLimiter (Attachment δ)) :
    Device.reset l.attach = (Device.reset l).attach := rfl

end Attachment

end Octet
