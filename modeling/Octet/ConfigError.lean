import Octet.Text.Blank

/-! # Configuration errors

What makes a description of a machine's devices unusable: a memory whose width is out of range, or a
range prefix that is no short list of binary digits.
-/

namespace Octet

inductive ConfigError where
  | width (bits : Nat)
  | rangeDigits (range : Text)
  | rangeLength (range : Text)
deriving DecidableEq, Repr

def ConfigError.message : ConfigError → String
  | .width bits => s!"memory address width must be between 1 and 16 bits, got {bits}"
  | .rangeDigits range =>
    let text := String.ofList range
    s!"range prefix `{text}` must contain only the digits 0 and 1"
  | .rangeLength range =>
    let text := String.ofList range
    s!"range prefix `{text}` is longer than 16 bits"

end Octet
