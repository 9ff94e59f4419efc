import Octet.Word

/-! # Devices

What a bus can talk to: a state that may answer a read, may accept a write, and can be reset. Whether
or not it answers, a transfer leaves the device in its next state.
-/

namespace Octet

class Device (δ : Type) where
  read : δ → Address → Option Byte × δ
  write : δ → Address → Byte → Bool × δ
  reset : δ → δ

end Octet
