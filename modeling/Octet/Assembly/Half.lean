import Octet.Text.Blank
import Octet.Word

/-! # Halves of an address

An address takes two bytes, and a source text names each of them by a suffix.
-/

namespace Octet

inductive Half where
  | high
  | low
deriving DecidableEq, Repr

namespace Half

def of : Half → Address → Byte
  | .high => highByte
  | .low => lowByte

def suffix : Half → Text
  | .high => ['.', 'h']
  | .low => ['.', 'l']

def name : Half → String
  | .high => "high"
  | .low => "low"

theorem join_of (a : Address) : joinBytes (high.of a) (low.of a) = a := joinBytes_highByte_lowByte a

end Half

end Octet
