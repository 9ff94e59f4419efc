/-! # Bytes and addresses

The machine's registers and memory cells hold bytes; its addresses are words of two bytes. Taking a
word apart and joining its halves are inverse to each other.
-/

namespace Octet

abbrev Byte := UInt8

abbrev Address := UInt16

def highByte (w : Address) : Byte := (w / 256).toUInt8

def lowByte (w : Address) : Byte := w.toUInt8

def joinBytes (high low : Byte) : Address := high.toUInt16 * 256 + low.toUInt16

theorem toNat_highByte (w : Address) : (highByte w).toNat = w.toNat / 256 := by
  have := w.toNat_lt
  simp [highByte]
  omega

theorem toNat_lowByte (w : Address) : (lowByte w).toNat = w.toNat % 256 := by
  simp [lowByte]

theorem toNat_joinBytes (h l : Byte) : (joinBytes h l).toNat = h.toNat * 256 + l.toNat := by
  have := h.toNat_lt
  have := l.toNat_lt
  simp [joinBytes, UInt16.toNat_add, UInt16.toNat_mul]
  omega

@[simp] theorem highByte_joinBytes (h l : Byte) : highByte (joinBytes h l) = h := by
  have := l.toNat_lt
  apply UInt8.toNat_inj.1
  rw [toNat_highByte, toNat_joinBytes]
  omega

@[simp] theorem lowByte_joinBytes (h l : Byte) : lowByte (joinBytes h l) = l := by
  have := l.toNat_lt
  apply UInt8.toNat_inj.1
  rw [toNat_lowByte, toNat_joinBytes]
  omega

@[simp] theorem joinBytes_highByte_lowByte (w : Address) : joinBytes (highByte w) (lowByte w) = w := by
  apply UInt16.toNat_inj.1
  rw [toNat_joinBytes, toNat_highByte, toNat_lowByte]
  omega

end Octet
